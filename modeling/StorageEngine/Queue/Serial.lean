import StorageEngine.Db.Failures
import StorageEngine.Queue.Model

/-! Group commit is serial and loses no writer.  Three invariants carry the result, as long as the
writer thread is not stopped: at most one group is in progress and the writers stand in the order of
their arrival (`InOrder`), every finished writer goes on once with the status of its group
(`Delivered`), and the groups that report success are in the log and in the table (`Durable`). -/

namespace StorageEngine

open Wal Io Transition

def Phase.calls : Phase → List (List Writer × Call)
  | .writing group call => [(group, call)]
  | _ => []

def Phase.pending : Phase → List Writer
  | .resuming pending => pending
  | _ => []

def Call.ok : Call → Bool
  | .started => false
  | .returned status => status.ok

/-- Whether the writer thread keeps `writing_` set. -/
def Phase.busy : Phase → Nat
  | .gathering => 1
  | .writing _ _ => 1
  | _ => 0

namespace GroupCommit

/-- The calls of `writeGroup` that have started and whose callers have not finished with them. -/
def calls (s : GroupCommit) : List (List Writer × Call) :=
  s.inline.map (fun client => ([client.1], client.2)) ++ s.thread.calls

def inProgress (s : GroupCommit) : List (List Writer) := s.calls.map Prod.fst

def finishedWriters (s : GroupCommit) : List Writer := (s.finished.map Prod.fst).flatten

/-! ### Order -/

structure InOrder (s : GroupCommit) : Prop where
  exclusive : s.inline.length + s.thread.busy = s.queue.writing.toNat
  order : s.arrivals = s.finishedWriters ++ s.inProgress.flatten ++ s.queue.writers
  fresh : (s.arrivals.map Writer.id).Nodup

theorem calls_of_not_busy {phase : Phase} (h : phase.busy = 0) : phase.calls = [] := by
  cases phase <;> simp_all [Phase.busy, Phase.calls]

theorem InOrder.quiet {s : GroupCommit} (h : InOrder s) (hwriting : s.queue.writing = false) :
    s.inline = [] ∧ s.thread.busy = 0 := by
  have := h.exclusive
  rw [hwriting, Bool.toNat_false] at this
  exact ⟨List.length_eq_zero_iff.mp (by omega), by omega⟩

theorem InOrder.inline_alone {s : GroupCommit} (h : InOrder s) {before after : List (Writer × Call)}
    {client : Writer × Call} (hinline : s.inline = before ++ client :: after) :
    before = [] ∧ after = [] ∧ s.thread.busy = 0 := by
  have := h.exclusive
  have := Bool.toNat_le s.queue.writing
  simp only [hinline, List.length_append, List.length_cons] at *
  exact ⟨List.length_eq_zero_iff.mp (by omega), List.length_eq_zero_iff.mp (by omega), by omega⟩

theorem InOrder.thread_alone {s : GroupCommit} (h : InOrder s) (hbusy : s.thread.busy = 1) :
    s.inline = [] := by
  have := h.exclusive
  have := Bool.toNat_le s.queue.writing
  exact List.length_eq_zero_iff.mp (by omega)

theorem InOrder.wakes_quiet {s : GroupCommit} (h : InOrder s) (hrun : s.queue.stopWriter = false)
    (hwakes : s.queue.wakes = true) : s.inline = [] :=
  (h.quiet (WriteQueue.writing_of_wakes hwakes hrun)).1

/-- A step keeps the order as long as the writer thread does not wake up beside an inline group. -/
theorem inOrder_step {host : Host} {s t : GroupCommit} (h : InOrder s)
    (hquiet : s.queue.wakes = true → s.inline = []) (hstep : Step host s t) : InOrder t := by
  have hexclusive := h.exclusive
  have horder := h.order
  simp only [finishedWriters, inProgress, calls] at horder
  cases hstep with
  | enterInline writer hnew hbatch henqueue =>
    rcases WriteQueue.enqueue_inline henqueue with ⟨hwriting, hwriters, hqueue⟩
    rcases h.quiet hwriting with ⟨hinline, hbusy⟩
    have hcalls := calls_of_not_busy hbusy
    refine ⟨?_, ?_, by simpa [List.nodup_append] using ⟨h.fresh, by simpa using hnew⟩⟩
    · simp [hqueue, hinline, hbusy]
    · simp [finishedWriters, inProgress, calls, hqueue, horder, hinline, hcalls, hwriters]
  | enterQueued writer hnew hbatch henqueue =>
    rcases WriteQueue.enqueue_queued henqueue with ⟨armed, hqueue⟩
    refine ⟨?_, ?_, by simpa [List.nodup_append] using ⟨h.fresh, by simpa using hnew⟩⟩
    · simpa [hqueue] using hexclusive
    · simp [finishedWriters, inProgress, calls, hqueue, horder]
  | inlineCall io writer before after hinline =>
    refine ⟨?_, ?_, h.fresh⟩
    · simpa [call, hinline] using hexclusive
    · simpa [finishedWriters, inProgress, calls, call, hinline] using horder
  | inlineFinish writer status before after hinline =>
    rcases h.inline_alone hinline with ⟨rfl, rfl, hbusy⟩
    have hcalls := calls_of_not_busy hbusy
    refine ⟨by simp [publish, hbusy], ?_, h.fresh⟩
    simpa [finishedWriters, inProgress, calls, publish, hinline, hcalls] using horder
  | inlineResume writer before after hreturning => exact ⟨hexclusive, horder, h.fresh⟩
  | wakeGather hthread hwakes hstays hbegin =>
    have hinline := hquiet hwakes
    rcases s.queue.begin_eq with ⟨armed, hqueue⟩
    refine ⟨by simp [hqueue, hinline, Phase.busy], ?_, h.fresh⟩
    simpa [finishedWriters, inProgress, calls, hqueue, hthread, Phase.calls] using horder
  | wakeCollect hthread hwakes hstays hbegin =>
    have hinline := hquiet hwakes
    rcases s.queue.begin_eq with ⟨armed, hqueue⟩
    refine ⟨by simp [collect, hqueue, hinline, Phase.busy], ?_, h.fresh⟩
    simpa [finishedWriters, inProgress, calls, collect, hqueue, hthread, hinline, Phase.calls,
      WriteQueue.drain_eq] using horder
  | collect hthread =>
    have hinline := h.thread_alone (by rw [hthread]; rfl)
    refine ⟨?_, ?_, h.fresh⟩
    · simpa [GroupCommit.collect, hthread, Phase.busy] using hexclusive
    · simpa [finishedWriters, inProgress, calls, GroupCommit.collect, hthread, hinline, Phase.calls,
        WriteQueue.drain_eq] using horder
  | threadCall io group hthread =>
    refine ⟨?_, ?_, h.fresh⟩
    · simpa [call, hthread, Phase.busy] using hexclusive
    · simpa [finishedWriters, inProgress, calls, call, hthread, Phase.calls] using horder
  | threadFinish group status hthread =>
    have hinline := h.thread_alone (by rw [hthread]; rfl)
    rcases s.queue.finish_eq group with ⟨armed, hqueue⟩
    refine ⟨by simp [publish, hqueue, hinline, Phase.busy], ?_, h.fresh⟩
    simpa [finishedWriters, inProgress, calls, publish, hqueue, hthread, hinline, Phase.calls]
      using horder
  | threadResume writer pending hthread =>
    refine ⟨by simpa [hthread, Phase.busy] using hexclusive, ?_, h.fresh⟩
    simpa [finishedWriters, inProgress, calls, hthread, Phase.calls] using horder
  | threadLoop hthread =>
    refine ⟨by simpa [hthread, Phase.busy] using hexclusive, ?_, h.fresh⟩
    simpa [finishedWriters, inProgress, calls, hthread, Phase.calls] using horder
  | threadExit hthread hexits =>
    refine ⟨by simpa [hthread, Phase.busy] using hexclusive, ?_, h.fresh⟩
    simpa [finishedWriters, inProgress, calls, hthread, Phase.calls] using horder
  | stop => exact ⟨hexclusive, horder, h.fresh⟩

theorem InOrder.id_notMem {s : GroupCommit} (h : InOrder s) {group : List Writer} {call : Call}
    (hcall : (group, call) ∈ s.calls) {writer : Writer} (hwriter : writer ∈ s.finishedWriters) :
    writer.id ∉ group.map Writer.id := by
  intro hmem
  rcases List.mem_map.mp hmem with ⟨other, hother, hid⟩
  have hflatten : other ∈ s.inProgress.flatten :=
    List.mem_flatten.mpr ⟨group, List.mem_map_of_mem hcall, hother⟩
  have hnodup := h.fresh
  rw [h.order, List.append_assoc, List.map_append, List.nodup_append] at hnodup
  exact hnodup.2.2 _ (List.mem_map_of_mem hwriter) _
    (List.mem_map_of_mem (List.mem_append_left _ hflatten)) hid.symm

/-! ### Statuses -/

/-- The writers that have their status and did not yet go on. -/
def waiting (s : GroupCommit) : List Writer := s.returning ++ s.thread.pending

/-- What a step does to the statuses, and to the finished and the resumed writers. -/
inductive Event (s t : GroupCommit) : Prop
  | silent (hstatus : t.status = s.status) (hfinished : t.finished = s.finished)
      (hresumed : t.resumed = s.resumed) (hwaiting : t.waiting = s.waiting)
  | finishes (group : List Writer) (status : Status)
      (hcall : (group, Call.returned status) ∈ s.calls)
      (hstatus : t.status = (s.publish group status).status)
      (hfinished : t.finished = s.finished ++ [(group, status)])
      (hresumed : t.resumed = s.resumed) (hwaiting : t.waiting.Perm (s.waiting ++ group))
  | resumes (writer : Writer) (hstatus : t.status = s.status) (hfinished : t.finished = s.finished)
      (hresumed : t.resumed = s.resumed ++ [(writer, s.status writer.id)])
      (hwaiting : s.waiting.Perm (writer :: t.waiting))

theorem Step.event {host : Host} {s t : GroupCommit} (hstep : Step host s t) : Event s t := by
  cases hstep with
  | enterInline => exact .silent rfl rfl rfl rfl
  | enterQueued => exact .silent rfl rfl rfl rfl
  | inlineCall => exact .silent rfl rfl rfl rfl
  | inlineFinish writer status before after hinline =>
    refine .finishes [writer] status ?_ rfl rfl rfl ?_
    · simp [calls, hinline]
    · simp only [waiting, publish, List.append_assoc]
      exact List.perm_append_comm.append_left _
  | inlineResume writer before after hreturning =>
    refine .resumes writer rfl rfl rfl ?_
    simp only [waiting, hreturning, List.append_assoc, List.cons_append]
    exact List.perm_middle
  | wakeGather hthread => exact .silent rfl rfl rfl (by simp [waiting, hthread, Phase.pending])
  | wakeCollect hthread =>
    exact .silent rfl rfl rfl (by simp [waiting, GroupCommit.collect, hthread, Phase.pending])
  | collect hthread =>
    exact .silent rfl rfl rfl (by simp [waiting, GroupCommit.collect, hthread, Phase.pending])
  | threadCall io group hthread =>
    exact .silent rfl rfl rfl (by simp [waiting, call, hthread, Phase.pending])
  | threadFinish group status hthread =>
    refine .finishes group status ?_ rfl rfl rfl ?_
    · simp [calls, hthread, Phase.calls]
    · simp [waiting, publish, hthread, Phase.pending]
  | threadResume writer pending hthread =>
    refine .resumes writer rfl rfl rfl ?_
    simp only [waiting, hthread, Phase.pending]
    exact List.perm_middle
  | threadLoop hthread => exact .silent rfl rfl rfl (by simp [waiting, hthread, Phase.pending])
  | threadExit hthread => exact .silent rfl rfl rfl (by simp [waiting, hthread, Phase.pending])
  | stop => exact .silent rfl rfl rfl rfl

structure Delivered (s : GroupCommit) : Prop where
  statuses : ∀ f ∈ s.finished, ∀ writer ∈ f.1, s.status writer.id = f.2
  released : (s.resumed.map Prod.fst ++ s.waiting).Perm s.finishedWriters
  seen : ∀ r ∈ s.resumed, r.2 = s.status r.1.id

theorem Delivered.mem_finished {s : GroupCommit} (h : Delivered s) {r : Writer × Status}
    (hr : r ∈ s.resumed) : r.1 ∈ s.finishedWriters :=
  h.released.subset (List.mem_append_left _ (List.mem_map_of_mem hr))

theorem mem_finishedWriters {s : GroupCommit} {f : List Writer × Status} (hf : f ∈ s.finished)
    {writer : Writer} (hwriter : writer ∈ f.1) : writer ∈ s.finishedWriters :=
  List.mem_flatten.mpr ⟨f.1, List.mem_map_of_mem hf, hwriter⟩

theorem delivered_step {s t : GroupCommit} (horder : InOrder s) (h : Delivered s)
    (hevent : Event s t) : Delivered t := by
  cases hevent with
  | silent hstatus hfinished hresumed hwaiting =>
    have hwriters : t.finishedWriters = s.finishedWriters := by simp [finishedWriters, hfinished]
    constructor
    · rw [hfinished, hstatus]; exact h.statuses
    · rw [hresumed, hwaiting, hwriters]; exact h.released
    · rw [hresumed, hstatus]; exact h.seen
  | finishes group status hcall hstatus hfinished hresumed hwaiting =>
    -- The statuses of writers that were finished before do not change.
    have hkept : ∀ writer ∈ s.finishedWriters, t.status writer.id = s.status writer.id := by
      intro writer hwriter
      rw [hstatus, publish]
      exact if_neg (horder.id_notMem hcall hwriter)
    refine ⟨fun f hf writer hwriter => ?_, ?_, fun r hr => ?_⟩
    · rw [hfinished, List.mem_append, List.mem_singleton] at hf
      rcases hf with hf | rfl
      · rw [hkept writer (mem_finishedWriters hf hwriter), h.statuses f hf writer hwriter]
      · rw [hstatus, publish]
        exact if_pos (List.mem_map_of_mem hwriter)
    · have hwriters : t.finishedWriters = s.finishedWriters ++ group := by
        simp [finishedWriters, hfinished]
      rw [hresumed, hwriters]
      refine (hwaiting.append_left _).trans ?_
      rw [← List.append_assoc]
      exact h.released.append_right group
    · rw [hresumed] at hr
      rw [h.seen r hr, hkept r.1 (h.mem_finished hr)]
  | resumes writer hstatus hfinished hresumed hwaiting =>
    have hwriters : t.finishedWriters = s.finishedWriters := by simp [finishedWriters, hfinished]
    refine ⟨by rw [hfinished, hstatus]; exact h.statuses, ?_, fun r hr => ?_⟩
    · rw [hwriters, hresumed, List.map_append, List.append_assoc]
      exact (hwaiting.symm.append_left _).trans h.released
    · rw [hresumed, List.mem_append, List.mem_singleton] at hr
      rw [hstatus]
      rcases hr with hr | rfl
      · exact h.seen r hr
      · rfl

/-! ### Durability -/

/-- The groups whose call of `writeGroup` returned `Ok`, in the order of the calls. -/
def succeeded (s : GroupCommit) : List (List Writer) :=
  (s.finished.filter fun f => f.2.ok).map Prod.fst ++ (s.calls.filter fun c => c.2.ok).map Prod.fst

/-- What a step does to the database: nothing, or a call of `writeGroup`. -/
inductive Access (host : Host) (s t : GroupCommit) : Prop
  | none (hdb : t.db = s.db) (hfile : t.file = s.file) (hdurable : t.durable = s.durable)
      (hcommitted : t.committed = s.committed) (hsucceeded : t.succeeded = s.succeeded)
  | call (io : WriteIo) (group : List Writer) (hdb : t.db = (s.call host io group).db)
      (hfile : t.file = (s.call host io group).file)
      (hdurable : t.durable = (s.call host io group).durable)
      (hcommitted : t.committed = (s.call host io group).committed)
      (hsucceeded : t.succeeded =
        s.succeeded ++ if (s.callStatus host io group).ok then [group] else [])

theorem Step.access {host : Host} {s t : GroupCommit} (h : InOrder s) (hstep : Step host s t) :
    Access host s t := by
  cases hstep with
  | enterInline => exact .none rfl rfl rfl rfl (by simp [succeeded, calls, Call.ok])
  | enterQueued => exact .none rfl rfl rfl rfl rfl
  | inlineCall io writer before after hinline =>
    rcases h.inline_alone hinline with ⟨rfl, rfl, hbusy⟩
    have hcalls := calls_of_not_busy hbusy
    refine .call io [writer] rfl rfl rfl rfl ?_
    cases hok : (s.callStatus host io [writer]).ok <;>
      simp [succeeded, calls, GroupCommit.call, hinline, hcalls, Call.ok, hok]
  | inlineFinish writer status before after hinline =>
    rcases h.inline_alone hinline with ⟨rfl, rfl, hbusy⟩
    have hcalls := calls_of_not_busy hbusy
    refine .none rfl rfl rfl rfl ?_
    cases hok : status.ok <;> simp [succeeded, calls, publish, hinline, hcalls, Call.ok, hok]
  | inlineResume => exact .none rfl rfl rfl rfl rfl
  | wakeGather hthread =>
    exact .none rfl rfl rfl rfl (by simp [succeeded, calls, hthread, Phase.calls])
  | wakeCollect hthread =>
    refine .none rfl rfl rfl rfl ?_
    simp [succeeded, calls, GroupCommit.collect, hthread, Phase.calls, Call.ok]
  | collect hthread =>
    refine .none rfl rfl rfl rfl ?_
    simp [succeeded, calls, GroupCommit.collect, hthread, Phase.calls, Call.ok]
  | threadCall io group hthread =>
    refine .call io group rfl rfl rfl rfl ?_
    cases hok : (s.callStatus host io group).ok <;>
      simp [succeeded, calls, GroupCommit.call, hthread, Phase.calls, Call.ok, hok]
  | threadFinish group status hthread =>
    have hinline := h.thread_alone (by rw [hthread]; rfl)
    refine .none rfl rfl rfl rfl ?_
    cases hok : status.ok <;>
      simp [succeeded, calls, publish, hinline, hthread, Phase.calls, Call.ok, hok]
  | threadResume writer pending hthread =>
    exact .none rfl rfl rfl rfl (by simp [succeeded, calls, hthread, Phase.calls])
  | threadLoop hthread =>
    exact .none rfl rfl rfl rfl (by simp [succeeded, calls, hthread, Phase.calls])
  | threadExit hthread =>
    exact .none rfl rfl rfl rfl (by simp [succeeded, calls, hthread, Phase.calls])
  | stop => exact .none rfl rfl rfl rfl rfl

/-- The log is what the database found when it was opened and then the groups that succeeded, and a
sync has covered it once there is such a group. -/
def Logged (host : Host) (s : GroupCommit) : Prop :=
  ∃ opened acked, s.committed = opened ++ acked ∧
    acked.map Group.batches = s.succeeded.map (List.map Writer.batch) ∧
    (acked ≠ [] → encodeLog host s.committed <+: s.durable)

structure Durable (host : Host) (s : GroupCommit) : Prop where
  store : ∃ rest, OpenOn host s.committed rest s.file s.db
  logged : Logged host s

section Call

variable {host : Host} {s : GroupCommit} {io : WriteIo} {group : List Writer} {rest : Bytes}

theorem call_failed (h : OpenOn host s.committed rest s.file s.db)
    (hfail : (s.callStatus host io group).ok = false) :
    (s.call host io group).committed = s.committed ∧
      (∃ rest, OpenOn host s.committed rest (s.call host io group).file
        (s.call host io group).db) ∧
      ((s.call host io group).durable = s.durable ∨
        (s.call host io group).durable = (s.call host io group).file) := by
  rw [callStatus] at hfail
  refine ⟨by simp [call, hfail], ?_, ?_⟩
  · rw [DB.status_writeGroup] at hfail
    exact ⟨_, (h.writeGroup_failed hfail).1⟩
  · cases hsynced : io.synced <;> simp [call, hsynced]

theorem call_ok (h : OpenOn host s.committed rest s.file s.db)
    (hok : (s.callStatus host io group).ok = true) :
    (s.call host io group).committed =
        s.committed ++ [s.db.nextGroup (group.map Writer.batch)] ∧
      (∃ rest, OpenOn host (s.call host io group).committed rest (s.call host io group).file
        (s.call host io group).db) ∧
      (s.call host io group).durable = (s.call host io group).file := by
  rw [callStatus] at hok
  have hcommitted : (s.call host io group).committed =
      s.committed ++ [s.db.nextGroup (group.map Writer.batch)] := by simp [call, hok]
  refine ⟨hcommitted, ⟨_, hcommitted ▸ h.writeGroup hok⟩, ?_⟩
  rw [DB.status_writeGroup] at hok
  rcases writevAndFDataSync_ok hok with ⟨-, -, -, hsynced⟩
  simp [call, hsynced]

end Call

theorem durable_step {host : Host} {s t : GroupCommit} (h : Durable host s)
    (haccess : Access host s t) : Durable host t := by
  rcases h with ⟨⟨rest, hopen⟩, opened, acked, hlog, hacked, hsynced⟩
  cases haccess with
  | none hdb hfile hdurable hcommitted hsucceeded =>
    refine ⟨⟨rest, by rwa [hdb, hfile, hcommitted]⟩, opened, acked, ?_⟩
    rw [hcommitted, hsucceeded, hdurable]
    exact ⟨hlog, hacked, hsynced⟩
  | call io group hdb hfile hdurable hcommitted hsucceeded =>
    cases hok : (s.callStatus host io group).ok with
    | false =>
      rcases call_failed hopen hok with ⟨hsame, ⟨rest', hstore⟩, hsync⟩
      refine ⟨⟨rest', by rwa [hdb, hfile, hcommitted, hsame]⟩, opened, acked, ?_⟩
      rw [hcommitted, hsame, hsucceeded, hok, hdurable]
      refine ⟨hlog, by simpa using hacked, fun hne => ?_⟩
      rcases hsync with hsync | hsync
      · rw [hsync]
        exact hsynced hne
      · rw [hsync]
        exact hstore.starts_with_log
    | true =>
      rcases call_ok hopen hok with ⟨hgrown, ⟨rest', hstore⟩, hsync⟩
      refine ⟨⟨rest', by rwa [hdb, hfile, hcommitted]⟩, opened,
        acked ++ [s.db.nextGroup (group.map Writer.batch)], ?_, ?_, fun _ => ?_⟩
      · rw [hcommitted, hgrown, hlog, List.append_assoc]
      · simp [hsucceeded, hok, hacked, DB.nextGroup]
      · rw [hcommitted, hdurable, hsync]
        exact hstore.starts_with_log

/-! ### Every run -/

theorem Step.stopWriter {host : Host} {s t : GroupCommit} (hstep : Step host s t)
    (hrun : t.queue.stopWriter = false) : s.queue.stopWriter = false := by
  cases hstep with
  | enterInline writer hnew hbatch henqueue =>
    rwa [(WriteQueue.enqueue_inline henqueue).2.2] at hrun
  | enterQueued writer hnew hbatch henqueue =>
    rcases WriteQueue.enqueue_queued henqueue with ⟨armed, hqueue⟩
    rwa [hqueue] at hrun
  | wakeGather =>
    rcases s.queue.begin_eq with ⟨armed, hqueue⟩
    rwa [hqueue] at hrun
  | wakeCollect =>
    rcases s.queue.begin_eq with ⟨armed, hqueue⟩
    simpa [GroupCommit.collect, hqueue] using hrun
  | threadFinish group =>
    rcases s.queue.finish_eq group with ⟨armed, hqueue⟩
    rwa [hqueue] at hrun
  | inlineCall => exact hrun
  | inlineFinish => exact hrun
  | inlineResume => exact hrun
  | collect => exact hrun
  | threadCall => exact hrun
  | threadResume => exact hrun
  | threadLoop => exact hrun
  | threadExit => exact hrun
  | stop => contradiction

structure Invariant (host : Host) (s : GroupCommit) : Prop where
  inOrder : InOrder s
  delivered : Delivered s
  durable : Durable host s

theorem invariant_of_reachable {host : Host} {s : GroupCommit}
    (h : Reachable (groupCommit host) s) (hrun : s.queue.stopWriter = false) :
    Invariant host s := by
  refine h.invariant (p := fun s => s.queue.stopWriter = false → Invariant host s) ?_ ?_ hrun
  · rintro s ⟨db, file, committed, rest, hopen, rfl⟩ -
    refine ⟨⟨rfl, rfl, List.nodup_nil⟩, ⟨by simp, .refl _, by simp⟩, ⟨⟨rest, hopen⟩, ?_⟩⟩
    exact ⟨committed, [], by simp, rfl, by simp⟩
  · intro s t _ hs hst hrun
    have hbefore := Step.stopWriter hst hrun
    rcases hs hbefore with ⟨hinOrder, hdelivered, hdurable⟩
    exact ⟨inOrder_step hinOrder (hinOrder.wakes_quiet hbefore) hst,
      delivered_step hinOrder hdelivered hst.event,
      durable_step hdurable (Step.access hinOrder hst)⟩

theorem InOrder.inProgress_length_le {s : GroupCommit} (h : InOrder s) :
    s.inProgress.length ≤ 1 := by
  have hthread : s.thread.calls.length ≤ s.thread.busy := by
    cases s.thread <;> simp [Phase.calls, Phase.busy]
  have := h.exclusive
  have := Bool.toNat_le s.queue.writing
  simp only [inProgress, calls, List.length_map, List.length_append]
  omega

theorem Delivered.resumed_nodup {s : GroupCommit} (h : Delivered s) (horder : InOrder s) :
    (s.resumed.map fun r => r.1.id).Nodup := by
  have hfinished : (s.finishedWriters.map Writer.id).Nodup := by
    have hnodup := horder.fresh
    rw [horder.order, List.append_assoc, List.map_append, List.nodup_append] at hnodup
    exact hnodup.1
  have hreleased := (h.released.map Writer.id).nodup_iff.mpr hfinished
  rw [List.map_append, List.nodup_append, List.map_map] at hreleased
  exact hreleased.1

theorem Delivered.exists_finished {s : GroupCommit} (h : Delivered s) {r : Writer × Status}
    (hr : r ∈ s.resumed) : ∃ f ∈ s.finished, r.1 ∈ f.1 ∧ r.2 = f.2 := by
  rcases List.mem_flatten.mp (h.mem_finished hr) with ⟨group, hgroup, hwriter⟩
  rcases List.mem_map.mp hgroup with ⟨f, hf, rfl⟩
  exact ⟨f, hf, hwriter, by rw [h.seen r hr, h.statuses f hf r.1 hwriter]⟩

def Synced (host : Host) (s : GroupCommit) (group : List Writer) : Prop :=
  (∃ g ∈ s.committed, g.batches = group.map Writer.batch) ∧
    encodeLog host s.committed <+: s.durable

theorem Logged.synced {host : Host} {s : GroupCommit} (h : Logged host s) {group : List Writer}
    (hgroup : group ∈ s.succeeded) : Synced host s group := by
  rcases h with ⟨opened, acked, hlog, hacked, hsynced⟩
  have hmem : group.map Writer.batch ∈ acked.map Group.batches :=
    hacked ▸ List.mem_map_of_mem hgroup
  rcases List.mem_map.mp hmem with ⟨g, hg, hbatches⟩
  exact ⟨⟨g, by simp [hlog, hg], hbatches⟩, hsynced (List.ne_nil_of_mem hg)⟩

theorem mem_succeeded {s : GroupCommit} {f : List Writer × Status} (hf : f ∈ s.finished)
    (hok : f.2.ok = true) : f.1 ∈ s.succeeded :=
  List.mem_append_left _ (List.mem_map_of_mem (List.mem_filter.mpr ⟨hf, hok⟩))

/-- Group commit is a serial, loss-free, first-come order. -/
structure Serial (host : Host) (s : GroupCommit) : Prop where
  exclusive : s.inProgress.length ≤ 1
  place : ∀ writer ∈ s.arrivals, s.queue.writers.count writer +
    s.inProgress.flatten.count writer + s.finishedWriters.count writer = 1
  order : s.finishedWriters ++ s.inProgress.flatten ++ s.queue.writers = s.arrivals
  status : ∀ f ∈ s.finished, ∀ writer ∈ f.1, s.status writer.id = f.2
  once : (s.resumed.map fun r => r.1.id).Nodup
  resumed : ∀ r ∈ s.resumed, ∃ f ∈ s.finished, r.1 ∈ f.1 ∧ r.2 = f.2 ∧
    (r.2.ok = true → Synced host s f.1)
  log : Logged host s
  applied : s.db.memtable.slot host = committedTable s.committed

end GroupCommit

open GroupCommit in
/-- In every state of every run, before the writer thread is stopped, group commit is serial. -/
theorem group_commit_serial (host : Host) (s : GroupCommit) (hs : Reachable (groupCommit host) s)
    (hrun : s.queue.stopWriter = false) : Serial host s := by
  rcases invariant_of_reachable hs hrun with ⟨horder, hdelivered, hdurable⟩
  refine ⟨horder.inProgress_length_le, fun writer hwriter => ?_, horder.order.symm,
    hdelivered.statuses, hdelivered.resumed_nodup horder, fun r hr => ?_, hdurable.logged, ?_⟩
  · have hcount := List.count_eq_one_of_mem (horder.fresh.of_map _) hwriter
    rw [horder.order, List.count_append, List.count_append] at hcount
    omega
  · rcases hdelivered.exists_finished hr with ⟨f, hf, hwriter, hstatus⟩
    exact ⟨f, hf, hwriter, hstatus, fun hok =>
      hdurable.logged.synced (mem_succeeded hf (hstatus ▸ hok))⟩
  · rcases hdurable.store with ⟨rest, hopen⟩
    exact hopen.slot

open GroupCommit in
/-- One writer commits inline; two that arrive meanwhile form a group, whose write is short. -/
theorem group_commit_serial_three_writers :
    ∃ s : GroupCommit, Reachable (groupCommit .sample) s ∧
      s.finished.map (fun f => f.1.map Writer.id) = [[0], [1, 2]] ∧
      s.resumed.map (fun r => (r.1.id, r.2.ok)) = [(0, true), (1, false), (2, false)] ∧
      s.queue.stopWriter = false ∧ Serial .sample s := by
  have h := Reachable.initial (initial_empty .sample)
  have h := h.step (.enterInline ⟨0, .put .new [97] [49]⟩ (by decide) rfl rfl)
  have h := h.step (.enterQueued ⟨1, .put .new [98] [50]⟩ (by decide) rfl rfl)
  have h := h.step (.inlineCall (.success 32) _ [] [] rfl)
  have h := h.step (.inlineFinish _ _ [] [] rfl)
  have h := h.step (.wakeGather rfl rfl rfl rfl)
  have h := h.step (.enterQueued ⟨2, .put .new [99] [51]⟩ (by decide) rfl rfl)
  have h := h.step (.collect rfl)
  have h := h.step (.threadCall (.success 0) _ rfl)
  have h := h.step (.threadFinish _ _ rfl)
  have h := h.step (.inlineResume _ [] [] rfl)
  have h := h.step (.threadResume _ _ rfl)
  have h := h.step (.threadResume _ _ rfl)
  refine ⟨_, h, ?_, ?_, rfl, group_commit_serial .sample _ h rfl⟩
  · rfl
  · decide +kernel

end StorageEngine
