import Mathlib.Data.List.Flatten
import StorageEngine.Db.Restarts
import StorageEngine.Queue.Serial

/-! Sessions with many clients.  Each one opens the database and runs the write queue until the
database is destroyed or the process dies, at any point and with any part of the record in progress
in the file; between them `Open` may fail, and recovery may be interrupted.  Such runs do what some
run of sessions with a single client does. -/

namespace StorageEngine

open Relation Wal Io Transition

def Call.failed : Call → Bool
  | .started => false
  | .returned status => !status.ok

namespace GroupCommit

/-- The writers that went on and saw `Ok`, in the order in which they arrived. -/
def acknowledged (s : GroupCommit) : List Writer :=
  s.arrivals.filter fun writer => s.resumed.any fun r => r.1 == writer && r.2.ok

/-- No call of `writeGroup` has failed and is not yet finished. -/
def Succeeds (s : GroupCommit) : Prop := ∀ c ∈ s.calls, c.2.failed = false

instance (s : GroupCommit) : Decidable s.Succeeds :=
  inferInstanceAs (Decidable (∀ c ∈ s.calls, c.2.failed = false))

end GroupCommit

/-- The session, if there is one, and otherwise the file.  The other lists are those of the past
sessions: the groups in the log, and the batches that arrived and that were acknowledged. -/
structure Service where
  file : Bytes := []
  session : Option GroupCommit := none
  committed : List Group := []
  arrived : List WriteBatch := []
  acknowledged : List WriteBatch := []

namespace Service

/-- The session is over, with these groups in the log and these bytes in the file. -/
def ended (e : Service) (s : GroupCommit) (committed : List Group) (file : Bytes) : Service where
  file
  committed
  arrived := e.arrived ++ s.arrivals.map Writer.batch
  acknowledged := e.acknowledged ++ s.acknowledged.map Writer.batch

/-- The process has died inside `writeGroup`, with `cut` bytes of the record in the file. -/
def torn (host : Host) (e : Service) (s : GroupCommit) (group : List Writer) (cut : Nat) :
    Service :=
  let next := s.db.nextGroup (group.map Writer.batch)
  e.ended s (s.committed ++ if (next.encode host).length ≤ cut then [next] else [])
    (s.file.take s.db.walOffset ++ (next.encode host).take cut)

/-- The calls of `writeGroup` succeed.  The destructor runs when no inline group is in progress, and
no writer enters after it. -/
inductive Step (host : Host) : Service → Service → Prop
  | opens {e : Service} (io : RecoverIo) (db : DB) (after : Bytes) (hclosed : e.session = none)
      (hio : io.Whole host e.file)
      (hopen : DB.openDb host { recover := io } e.file = (.ok db, after)) :
      Step host e
        { e with file := after, session := some { db, file := after, committed := e.committed } }
  | openFails {e : Service} (io : OpenIo) (status : Status) (after : Bytes)
      (hclosed : e.session = none) (hread : io.recover.ReadsAll host e.file)
      (hopen : DB.openDb host io e.file = (.error status, after)) :
      Step host e { e with file := after }
  | crashInRecovery {e : Service} (decoded : DecodeResult) (cut : Nat) (hclosed : e.session = none)
      (hdecode : decodeLog host e.file = .ok decoded) (hcut : decoded.validBytes ≤ cut) :
      Step host e { e with file := e.file.take cut }
  | queue {e : Service} {s t : GroupCommit} (hsession : e.session = some s)
      (hst : GroupCommit.Step host s t) (hsucceeds : t.Succeeds)
      (hstop : t.queue.stopWriter = true → t.inline = [] ∧ t.arrivals = s.arrivals) :
      Step host e { e with session := some t }
  | ends {e : Service} {s : GroupCommit} (hsession : e.session = some s)
      (hidle : ∀ group, (group, Call.started) ∉ s.calls) :
      Step host e (e.ended s s.committed s.file)
  | crash {e : Service} {s : GroupCommit} (group : List Writer) (cut : Nat)
      (hsession : e.session = some s) (hcall : (group, Call.started) ∈ s.calls)
      (hfits : (s.db.nextGroup (group.map Writer.batch)).Fits) :
      Step host e (e.torn host s group cut)

end Service

def service (host : Host) : System Service where
  initial e := e = {}
  step := Service.Step host

/-- The writer thread never has an empty group. -/
def Phase.Holds (writers : List Writer) : Phase → Prop
  | .gathering => writers ≠ []
  | .writing group _ => group ≠ []
  | _ => True

namespace GroupCommit

variable {host : Host} {base : List Group} {s t : GroupCommit}

/-! ### A session -/

/-- A session that began with the groups `base` in the log. -/
structure Session (base : List Group) (s : GroupCommit) : Prop where
  inOrder : InOrder s
  delivered : Delivered s
  batches : ∀ writer ∈ s.arrivals, writer.batch.empty = false
  holds : s.thread.Holds s.queue.writers
  logged : ∃ acked, s.committed = base ++ acked ∧
    acked.map Group.batches = s.succeeded.map (List.map Writer.batch)
  stops : s.queue.stopWriter = true → s.inline = []

theorem batches_step (h : ∀ writer ∈ s.arrivals, writer.batch.empty = false)
    (hst : Step host s t) : ∀ writer ∈ t.arrivals, writer.batch.empty = false := by
  cases hst with
  | enterInline writer hnew hbatch | enterQueued writer hnew hbatch =>
    exact List.forall_mem_append.mpr ⟨h, List.forall_mem_singleton.mpr hbatch⟩
  | _ => exact h

theorem holds_step (h : s.thread.Holds s.queue.writers) (hst : Step host s t) :
    t.thread.Holds t.queue.writers := by
  cases hst with
  | enterInline writer hnew hbatch henqueue =>
    rw [(WriteQueue.enqueue_inline henqueue).2.2]
    exact h
  | enterQueued writer hnew hbatch henqueue =>
    obtain ⟨armed, hqueue⟩ := WriteQueue.enqueue_queued henqueue
    cases hthread : s.thread <;> simp_all [Phase.Holds]
  | wakeGather hthread hwakes hstays hbegin =>
    have hwriters := WriteQueue.writers_of_wakes hwakes hstays
    obtain ⟨armed, hqueue⟩ := s.queue.begin_eq
    rw [hqueue]
    exact hwriters
  | wakeCollect hthread hwakes hstays hbegin =>
    obtain ⟨armed, hqueue⟩ := s.queue.begin_eq
    simpa [GroupCommit.collect, hqueue, Phase.Holds, WriteQueue.drain_eq]
      using WriteQueue.writers_of_wakes hwakes hstays
  | collect hthread =>
    rw [hthread] at h
    simpa [GroupCommit.collect, Phase.Holds, WriteQueue.drain_eq] using h
  | threadCall io group hthread =>
    rw [hthread] at h
    exact h
  | threadFinish | threadResume | threadLoop | threadExit => trivial
  | inlineCall | inlineFinish | inlineResume | stop => exact h

theorem group_ne_nil (h : s.thread.Holds s.queue.writers) {group : List Writer} {call : Call}
    (hcall : (group, call) ∈ s.calls) : group ≠ [] := by
  rcases List.mem_append.mp hcall with hinline | hthread
  · obtain ⟨client, -, hclient⟩ := List.mem_map.mp hinline
    rw [← (Prod.mk.inj hclient).1]
    simp
  · cases hphase : s.thread <;> simp_all [Phase.calls, Phase.Holds]

theorem Session.admitted (h : Session base s) {group : List Writer} {call : Call}
    (hcall : (group, call) ∈ s.calls) : Admitted (group.map Writer.batch) := by
  refine ⟨by simpa using group_ne_nil h.holds hcall, fun batch hbatch => ?_⟩
  obtain ⟨writer, hwriter, rfl⟩ := List.mem_map.mp hbatch
  refine h.batches writer ?_
  have hgroup : writer ∈ s.inProgress.flatten :=
    List.mem_flatten.mpr ⟨group, List.mem_map_of_mem hcall, hwriter⟩
  rw [h.inOrder.order]
  exact List.mem_append_left _ (List.mem_append_right _ hgroup)

theorem logged_step {acked : List Group} (h : s.committed = base ++ acked)
    (hacked : acked.map Group.batches = s.succeeded.map (List.map Writer.batch))
    (haccess : Access host s t) : ∃ acked, t.committed = base ++ acked ∧
      acked.map Group.batches = t.succeeded.map (List.map Writer.batch) := by
  cases haccess with
  | none hdb hfile hdurable hcommitted hsucceeded =>
    exact ⟨acked, by rw [hcommitted, h], by rw [hsucceeded, hacked]⟩
  | call io group hdb hfile hdurable hcommitted hsucceeded =>
    cases hok : (s.callStatus host io group).ok with
    | false =>
      refine ⟨acked, ?_, by simpa [hsucceeded, hok] using hacked⟩
      rw [hcommitted, call]
      rw [callStatus] at hok
      simp [hok, h]
    | true =>
      refine ⟨acked ++ [s.db.nextGroup (group.map Writer.batch)], ?_, ?_⟩
      · rw [hcommitted, call]
        rw [callStatus] at hok
        simp [hok, h]
      · simp [hsucceeded, hok, hacked, DB.nextGroup]

theorem session_opened (db : DB) (file : Bytes) (base : List Group) :
    Session base { db, file, committed := base } where
  inOrder := ⟨rfl, rfl, .nil⟩
  delivered := ⟨by simp, .nil, by simp⟩
  batches := by simp
  holds := trivial
  logged := ⟨[], (List.append_nil _).symm, rfl⟩
  stops := by simp

theorem session_step (h : Session base s) (hst : Step host s t)
    (hstop : t.queue.stopWriter = true → t.inline = []) : Session base t := by
  obtain ⟨acked, hcommitted, hacked⟩ := h.logged
  have hquiet : s.queue.wakes = true → s.inline = [] := by
    intro hwakes
    cases hrun : s.queue.stopWriter with
    | true => exact h.stops hrun
    | false => exact h.inOrder.wakes_quiet hrun hwakes
  exact
    { inOrder := inOrder_step h.inOrder hquiet hst
      delivered := delivered_step h.inOrder h.delivered hst.event
      batches := batches_step h.batches hst
      holds := holds_step h.holds hst
      logged := logged_step hcommitted hacked (hst.access h.inOrder)
      stops := hstop }

/-! ### What was acknowledged -/

theorem filter_flatten_sublist {p : Writer → Bool} {finished : List (List Writer × Status)}
    (h : ∀ f ∈ finished, f.2.ok = false → ∀ writer ∈ f.1, p writer = false) :
    ((finished.map Prod.fst).flatten.filter p).Sublist
      ((finished.filter fun f => f.2.ok).map Prod.fst).flatten := by
  induction finished with
  | nil => exact .slnil
  | cons f finished ih =>
    rw [List.forall_mem_cons] at h
    simp only [List.map_cons, List.flatten_cons, List.filter_append, List.filter_cons]
    cases hok : f.2.ok with
    | true => simpa using (List.filter_sublist).append (ih h.2)
    | false =>
      have hnone : f.1.filter p = [] := List.filter_eq_nil_iff.mpr (by simpa using h.1 hok)
      simpa [hnone] using ih h.2

/-- The acknowledged writers belong to groups whose call succeeded. -/
theorem Session.acknowledged_sublist (h : Session base s) :
    s.acknowledged.Sublist ((s.finished.filter fun f => f.2.ok).map Prod.fst).flatten := by
  have hresumed : ∀ writer, (s.resumed.any fun r => r.1 == writer && r.2.ok) = true →
      ∃ f ∈ s.finished, writer ∈ f.1 ∧ f.2.ok = true := by
    intro writer hany
    obtain ⟨r, hr, hwriter⟩ := List.any_eq_true.mp hany
    simp only [Bool.and_eq_true, beq_iff_eq] at hwriter
    obtain ⟨f, hf, hmem, hstatus⟩ := h.delivered.exists_finished hr
    exact ⟨f, hf, hwriter.1 ▸ hmem, hstatus ▸ hwriter.2⟩
  rw [acknowledged, h.inOrder.order, List.append_assoc, List.filter_append]
  have hnone : (s.inProgress.flatten ++ s.queue.writers).filter
      (fun writer => s.resumed.any fun r => r.1 == writer && r.2.ok) = [] := by
    rw [List.filter_eq_nil_iff]
    intro writer hwriter hany
    obtain ⟨f, hf, hmem, -⟩ := hresumed writer hany
    have hnodup := h.inOrder.fresh.of_map
    rw [h.inOrder.order, List.append_assoc, List.nodup_append] at hnodup
    exact hnodup.2.2 _ (mem_finishedWriters hf hmem) _ hwriter rfl
  rw [hnone, List.append_nil]
  refine filter_flatten_sublist fun f hf hfailed writer hwriter => ?_
  by_contra hany
  obtain ⟨f', hf', hwriter', hok⟩ := hresumed writer (by simpa using hany)
  have hstatus := h.delivered.statuses f hf writer hwriter
  rw [h.delivered.statuses f' hf' writer hwriter'] at hstatus
  simp [hstatus, hfailed] at hok

theorem Session.flatMap_batches (h : Session base s) :
    s.committed.flatMap Group.batches =
      base.flatMap Group.batches ++ s.succeeded.flatten.map Writer.batch := by
  obtain ⟨acked, hcommitted, hacked⟩ := h.logged
  have hflat : acked.flatMap Group.batches = (acked.map Group.batches).flatten := List.flatMap_def
  rw [hcommitted, List.flatMap_append, hflat, hacked, List.map_flatten]

theorem Session.succeeded_sublist (h : Session base s) :
    s.succeeded.flatten.Sublist s.arrivals := by
  rw [h.inOrder.order, succeeded, List.flatten_append]
  have hfinished := ((List.filter_sublist (p := fun f : List Writer × Status => f.2.ok)
    (l := s.finished)).map Prod.fst).flatten
  have hcalls := ((List.filter_sublist (p := fun c : List Writer × Call => c.2.ok)
    (l := s.calls)).map Prod.fst).flatten
  exact (hfinished.append hcalls).trans (List.sublist_append_left _ _)

/-- A group whose call is in progress comes next. -/
theorem Session.succeeded_started (h : Session base s) {group : List Writer}
    (hcall : (group, Call.started) ∈ s.calls) :
    (s.succeeded.flatten ++ group).Sublist s.arrivals := by
  have hlength := h.inOrder.inProgress_length_le
  have hcalls : s.calls = [(group, .started)] := by
    rw [inProgress, List.length_map] at hlength
    obtain ⟨before, after, hsplit⟩ := List.append_of_mem hcall
    rw [hsplit, List.length_append, List.length_cons] at hlength
    rw [hsplit, List.length_eq_zero_iff.mp (show before.length = 0 by omega),
      List.length_eq_zero_iff.mp (show after.length = 0 by omega), List.nil_append]
  have hsucceeded : s.succeeded = (s.finished.filter fun f => f.2.ok).map Prod.fst := by
    simp [succeeded, hcalls, Call.ok]
  have hfinished := ((List.filter_sublist (p := fun f : List Writer × Status => f.2.ok)
    (l := s.finished)).map Prod.fst).flatten
  rw [h.inOrder.order, hsucceeded, inProgress, hcalls]
  refine List.Sublist.trans ?_ (List.sublist_append_left _ _)
  simpa [finishedWriters] using hfinished.append (List.Sublist.refl group)

/-- What a step does to the database: nothing, or a call of `writeGroup` that had started. -/
theorem Step.called (hst : Step host s t) :
    (t.db = s.db ∧ t.file = s.file ∧ t.committed = s.committed) ∨
      ∃ io group, (group, Call.started) ∈ s.calls ∧
        (group, Call.returned (s.callStatus host io group)) ∈ t.calls ∧
        t.db = (s.call host io group).db ∧ t.file = (s.call host io group).file ∧
        t.committed = (s.call host io group).committed := by
  cases hst with
  | inlineCall io writer before after hinline =>
    refine .inr ⟨io, [writer], ?_, ?_, rfl, rfl, rfl⟩
    · simp [calls, hinline]
    · simp [calls]
  | threadCall io group hthread =>
    refine .inr ⟨io, group, ?_, ?_, rfl, rfl, rfl⟩
    · simp [calls, hthread, Phase.calls]
    · simp [calls, Phase.calls]
  | _ => exact .inl ⟨rfl, rfl, rfl⟩

end GroupCommit

/-! ### The sequential run -/

namespace Service

open GroupCommit

variable {host : Host} {e e' : Service} {w : World}

theorem exists_world (host : Host) {base synced : List Group} {s t : GroupCommit}
    (hs : Session base s) (hst : GroupCommit.Step host s t) (hsucceeds : t.Succeeds) :
    ∃ synced', ReflTransGen (restarts host).step ⟨s.file, some s.db, synced, s.committed⟩
      ⟨t.file, some t.db, synced', t.committed⟩ := by
  rcases hst.called with
    ⟨hdb, hfile, hcommitted⟩ | ⟨io, group, hcall, hreturned, hdb, hfile, hgroup⟩
  · rw [hdb, hfile, hcommitted]
    exact ⟨synced, .refl⟩
  · have hok : (s.callStatus host io group).ok = true := by
      simpa [Call.failed] using hsucceeds _ hreturned
    have hcommitted : (s.call host io group).committed =
        s.committed ++ [s.db.nextGroup (group.map Writer.batch)] := by
      rw [callStatus] at hok
      simp [call, hok]
    rw [hdb, hfile, hgroup, hcommitted]
    exact ⟨_, .single (.session (.group io _ (hs.admitted hcall) hok))⟩

/-- A state of a run of sessions with a single client does the same. -/
structure Follows (e : Service) (w : World) : Prop where
  closed : e.session = none → w.file = e.file ∧ w.db = none ∧ w.committed = e.committed
  running : ∀ s, e.session = some s → w.file = s.file ∧ w.db = some s.db ∧
    w.committed = s.committed ∧ Session e.committed s
  kept : e.acknowledged.Sublist (e.committed.flatMap Group.batches)
  entered : (e.committed.flatMap Group.batches).Sublist e.arrived

theorem Follows.ended (h : Follows e w) {s : GroupCommit} (hs : Session e.committed s)
    (next : List Writer) (hnext : (s.succeeded.flatten ++ next).Sublist s.arrivals)
    {committed synced : List Group} (hcommitted : committed.flatMap Group.batches =
      s.committed.flatMap Group.batches ++ next.map Writer.batch) (file : Bytes) :
    Follows (e.ended s committed file) ⟨file, none, synced, committed⟩ := by
  rw [hs.flatMap_batches, List.append_assoc, ← List.map_append] at hcommitted
  refine ⟨fun _ => ⟨rfl, rfl, rfl⟩, by simp [Service.ended], ?_, ?_⟩
  · have hacknowledged : s.acknowledged.Sublist (s.succeeded.flatten ++ next) := by
      rw [succeeded, List.flatten_append, List.append_assoc]
      exact hs.acknowledged_sublist.trans (List.sublist_append_left _ _)
    simpa only [Service.ended, hcommitted] using h.kept.append (hacknowledged.map Writer.batch)
  · simpa only [Service.ended, hcommitted] using h.entered.append (hnext.map Writer.batch)

theorem Follows.torn (h : Follows e w) {s : GroupCommit} (hs : Session e.committed s)
    {group : List Writer} (hcall : (group, Call.started) ∈ s.calls) (cut : Nat)
    {synced : List Group} :
    let next := s.db.nextGroup (group.map Writer.batch)
    Follows (e.torn host s group cut)
      { file := s.file.take s.db.walOffset ++ (next.encode host).take cut
        synced
        committed := s.committed ++ if (next.encode host).length ≤ cut then [next] else [] } := by
  intro next
  by_cases hcut : (next.encode host).length ≤ cut
  · simp only [Service.torn, next, hcut, if_true]
    refine h.ended hs group (hs.succeeded_started hcall) ?_ _
    simp [DB.nextGroup]
  · simp only [Service.torn, next, hcut, if_false]
    refine h.ended hs [] ?_ (by simp) _
    rw [List.append_nil]
    exact hs.succeeded_sublist

theorem follows_step (h : Follows e w) (hst : Step host e e') :
    ∃ w', ReflTransGen (restarts host).step w w' ∧ Follows e' w' := by
  obtain ⟨file, db, synced, committed⟩ := w
  cases hst with
  | opens io db after hclosed hio hopen =>
    obtain ⟨rfl, rfl, rfl⟩ := h.closed hclosed
    refine ⟨_, .single (.session (.opens io hio hopen)), ?_⟩
    refine ⟨by simp, ?_, h.kept, h.entered⟩
    rintro s hs
    obtain rfl := Option.some.inj hs
    exact ⟨rfl, rfl, rfl, session_opened db after e.committed⟩
  | openFails io status after hclosed hread hopen =>
    obtain ⟨rfl, rfl, rfl⟩ := h.closed hclosed
    refine ⟨_, .single (.openFails io status hread hopen), ?_⟩
    exact ⟨fun _ => ⟨rfl, rfl, rfl⟩, by simp [hclosed], h.kept, h.entered⟩
  | crashInRecovery decoded cut hclosed hdecode hcut =>
    obtain ⟨rfl, rfl, rfl⟩ := h.closed hclosed
    refine ⟨_, .single (.crash decoded cut hdecode hcut), ?_⟩
    exact ⟨fun _ => ⟨rfl, rfl, rfl⟩, by simp [hclosed], h.kept, h.entered⟩
  | queue hsession hst hsucceeds hstop =>
    obtain ⟨rfl, rfl, rfl, hs⟩ := h.running _ hsession
    obtain ⟨synced', hrun⟩ := exists_world host hs hst hsucceeds
    refine ⟨_, hrun, by simp, ?_, h.kept, h.entered⟩
    rintro _ hsame
    obtain rfl := Option.some.inj hsame
    exact ⟨rfl, rfl, rfl, session_step hs hst fun hrun => (hstop hrun).1⟩
  | ends hsession hidle =>
    obtain ⟨rfl, rfl, rfl, hs⟩ := h.running _ hsession
    refine ⟨_, .single (.session .close), h.ended hs [] ?_ ?_ _⟩
    · rw [List.append_nil]
      exact hs.succeeded_sublist
    · simp
  | crash group cut hsession hcall hfits =>
    obtain ⟨rfl, rfl, rfl, hs⟩ := h.running _ hsession
    refine ⟨_, .single (.session (.crash (group.map Writer.batch) false cut (hs.admitted hcall)
      hfits (by simp))), h.torn hs hcall cut⟩

theorem exists_follows (h : Reachable (service host) e) :
    ∃ w, Reachable (restarts host) w ∧ Follows e w := by
  refine h.simulated ?_ fun e e' w hfollows hst => follows_step hfollows hst
  rintro _ rfl
  exact ⟨{}, rfl, fun _ => ⟨rfl, rfl, rfl⟩, by simp, .slnil, .slnil⟩

end Service

/-- After any run of sessions with many clients, recovery has a log of which every acknowledged
batch is a part and every batch arrived, both in the order of arrival and each as often as it
arrived, and its table is that of the groups of the log applied in order. -/
theorem recover_after_service (host : Host) (e : Service) (h : Reachable (service host) e)
    (hclosed : e.session = none) (io : RecoverIo) (hio : io.Whole host e.file) :
    (∃ db, DB.recover host io e.file {} = (.Ok, db, encodeLog host e.committed) ∧
      db.memtable.slot host = committedTable e.committed) ∧
    e.acknowledged.Sublist (e.committed.flatMap Group.batches) ∧
    (e.committed.flatMap Group.batches).Sublist e.arrived := by
  obtain ⟨w, hw, hfollows⟩ := Service.exists_follows h
  obtain ⟨hfile, hdb, hcommitted⟩ := hfollows.closed hclosed
  rw [← hfile] at hio ⊢
  rw [← hcommitted]
  obtain ⟨db, hrecover, hrecovered⟩ := (consistent_of_restarts hw).recover hdb hio
  refine ⟨⟨db, hrecover, hrecovered.slot⟩, ?_⟩
  rw [hcommitted]
  exact ⟨hfollows.kept, hfollows.entered⟩

/-- One writer commits inline and goes on; the process dies while the writer thread writes the batch
of another one, with five bytes of its record in the file. -/
theorem recover_after_service_torn :
    ∃ e : Service, Reachable (service .sample) e ∧ e.arrived.length = 2 ∧
      e.acknowledged = [.put .new [97] [49]] ∧
      (∃ db, DB.recover .sample { readv := .done 37 } e.file {} =
          (.Ok, db, encodeLog .sample e.committed) ∧
        db.memtable.slot .sample = committedTable e.committed) ∧
      e.acknowledged.Sublist (e.committed.flatMap Group.batches) ∧
      (e.committed.flatMap Group.batches).Sublist e.arrived := by
  have h : Reachable (service .sample) {} := .initial rfl
  have h := h.step (.opens { readv := .done 0 } {} [] rfl ⟨rfl, rfl, rfl, rfl⟩ rfl)
  have h := h.step (.queue rfl (.enterInline ⟨0, .put .new [97] [49]⟩ (by decide) rfl rfl)
    (by decide) (by decide))
  have h := h.step (.queue rfl (.enterQueued ⟨1, .put .new [98] [50]⟩ (by decide) rfl rfl)
    (by decide) (by decide))
  have h := h.step (.queue rfl (.inlineCall (.success 32) _ [] [] rfl) (by decide +kernel)
    (by decide +kernel))
  have h := h.step (.queue rfl (.inlineFinish _ _ [] [] rfl) (by decide +kernel)
    (by decide +kernel))
  have h := h.step (.queue rfl (.inlineResume _ [] [] rfl) (by decide +kernel)
    (by decide +kernel))
  have h := h.step (.queue rfl (.wakeGather rfl rfl rfl rfl) (by decide +kernel)
    (by decide +kernel))
  have h := h.step (.queue rfl (.collect rfl) (by decide +kernel) (by decide +kernel))
  have h := h.step (.crash [⟨1, .put .new [98] [50]⟩] 5 rfl (List.mem_singleton_self _)
    (by decide +kernel))
  refine ⟨_, h, by decide +kernel, by decide +kernel, ?_⟩
  exact recover_after_service .sample _ h rfl { readv := .done 37 }
    ⟨rfl, by decide +kernel, rfl, rfl⟩

end StorageEngine
