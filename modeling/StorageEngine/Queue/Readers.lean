import StorageEngine.MemTable.Visibility
import StorageEngine.Queue.Serial

/-! Readers beside group commit.  The service is the write queue together with the shared table.
The steps are those of the queue, except that a call of `writeGroup` whose sync succeeded goes on in
steps of its own: the table takes its batches shard by shard, as `ApplyBatches` does, then the
offset and the sequence number advance, and only then the group is finished.  Between any two steps
a client may call `Get`. -/

namespace StorageEngine

open Wal Io Transition

namespace DB

/-- `writeGroup` until its record is handed to the executor. -/
def beginGroup (host : Host) (batches : List WriteBatch) (db : DB) : DB :=
  { db with writeScratch := { db.writeScratch with batches } }.encodeGroup host

/-- The end of `writeGroup`, after `ApplyBatches`. -/
def endGroup (batches : List WriteBatch) (db : DB) : DB :=
  { db with
    walOffset := db.walOffset + db.walRecord.size
    nextSequence := db.nextSequence + batches.foldl
      (fun count batch => count + BitVec.ofNat 64 batch.entries.length) 0#64 }

end DB

/-- The call of `ApplyBatches` for a group. -/
def Wal.Group.call (group : Group) : MemTable.Call := ⟨group.batches, group.baseSequence⟩

/-- The write queue and the table.  The shared table is the memtable of the queue's database, with
the calls of `ApplyBatches` and the reads since `Open`; for each read, `resumedAt` has the writers
that had gone on by then. -/
structure Serving where
  commit : GroupCommit
  shared : SharedTable
  resumedAt : List (List (Writer × Status)) := []

namespace Serving

/-- The reads, with the writers that had gone on before each. -/
def reads (s : Serving) : List (Read × List (Writer × Status)) := s.shared.reads.zip s.resumedAt

/-- The record of a group is on disk, and `ApplyBatches` distributes the entries over the shards. -/
def sync (host : Host) (s : Serving) (g : GroupCommit) (group : Group) : Serving :=
  { s with
    commit := { g with db := s.commit.db.beginGroup host group.batches }
    shared := s.shared.scatter host group.call }

def applyShard (s : Serving) (call : MemTable.Call) (shardIndex : Fin kShardCount) : Serving :=
  { s with
    commit.db.memtable := (s.shared.applyShard call shardIndex).table
    shared := s.shared.applyShard call shardIndex }

def endCall (s : Serving) (call : MemTable.Call) : Serving :=
  { s with
    commit.db := s.commit.db.endGroup call.batches
    shared := s.shared.finish call }

def get (host : Host) (s : Serving) (key : Bytes) : Serving :=
  { s with
    shared := s.shared.get host key
    resumedAt := s.resumedAt ++ [s.commit.resumed] }

/-- `queue` is any step of the write queue that commits no group; it finishes no group either while
the batches of one are being applied.  `sync` is a call of `writeGroup` whose sync succeeds. -/
inductive Step (host : Host) : Serving → Serving → Prop
  | queue {s : Serving} (g : GroupCommit) (h : GroupCommit.Step host s.commit g)
      (hrun : g.queue.stopWriter = false) (hcommitted : g.committed = s.commit.committed)
      (hfinished : s.shared.applying.isSome → g.finished = s.commit.finished) :
      Step host s { s with commit := g }
  | sync {s : Serving} (g : GroupCommit) (group : Group) (hidle : s.shared.applying = none)
      (h : GroupCommit.Step host s.commit g)
      (hcommitted : g.committed = s.commit.committed ++ [group]) :
      Step host s (s.sync host g group)
  | applyShard {s : Serving} (call : MemTable.Call) (shardIndex : Fin kShardCount)
      (happlying : s.shared.applying = some (call, shardIndex.val)) :
      Step host s (s.applyShard call shardIndex)
  | endCall {s : Serving} (call : MemTable.Call)
      (happlying : s.shared.applying = some (call, kShardCount)) : Step host s (s.endCall call)
  | get {s : Serving} (key : Bytes) : Step host s (s.get host key)

end Serving

/-- Clients of a database that found the groups `opened` in its log. -/
def serving (host : Host) (opened : List Group) : System Serving where
  initial s := ∃ db file rest, OpenOn host opened rest file db ∧ (∀ g ∈ opened, g.Fits) ∧
    s = { commit := { db, file, committed := opened }, shared := { table := db.memtable } }
  step := Serving.Step host

/-! ### The steps of a call -/

namespace DB

theorem memtable_beginGroup (host : Host) (db : DB) (batches : List WriteBatch) :
    (db.beginGroup host batches).memtable = db.memtable :=
  memtable_encodeGroup host _

theorem batches_beginGroup (host : Host) (db : DB) (batches : List WriteBatch) :
    (db.beginGroup host batches).writeScratch.batches = batches :=
  batches_encodeGroup host _

theorem memtableUpdates_eq (db db' : DB) :
    db.writeScratch.memtableUpdates = db'.writeScratch.memtableUpdates :=
  funext fun shard => by rw [db.writeScratch.updatesEmpty, db'.writeScratch.updatesEmpty]

/-- The scratch lists are empty again, so that nothing but the table has changed. -/
theorem applyScratch_eq (host : Host) (db : DB) (baseSequence : BitVec 64) :
    db.applyScratch host baseSequence = { db with
      memtable := (db.memtable.applyBatches host db.writeScratch.batches baseSequence
        db.writeScratch.memtableUpdates).1 } := by
  have hupdates := memtableUpdates_eq (db.applyScratch host baseSequence) db
  unfold applyScratch at hupdates ⊢
  simp only at hupdates ⊢
  simp only [hupdates]

/-- A call that succeeds is its steps, one after the other. -/
theorem writeGroup_eq_steps {host : Host} {io : WriteIo} {batches : List WriteBatch}
    {file : Bytes} {db : DB}
    (hok : (writeGroup host io batches file db).1.ok = true) :
    (writeGroup host io batches file db).2.1 =
      endGroup batches { db.beginGroup host batches with
        memtable := (db.memtable.applyBatches host batches db.nextSequence
          db.writeScratch.memtableUpdates).1 } := by
  have hupdates := memtableUpdates_eq (db.beginGroup host batches) db
  have hmemtable := memtable_beginGroup host db batches
  have hbatches := batches_beginGroup host db batches
  unfold beginGroup at hupdates hmemtable hbatches ⊢
  unfold writeGroup at hok ⊢
  simp only at hok ⊢
  split
  · next hfailed => simp_all
  · rw [applyGroup, applyScratch_eq, hmemtable, hbatches, hupdates]
    rfl

/-- What the rest of a call leaves, from a shard on. -/
def finishGroup (batches : List WriteBatch) (updates : PendingUpdates) (shardIndex : Nat)
    (db : DB) : DB :=
  endGroup batches { db with
    memtable := (((List.finRange kShardCount).drop shardIndex).foldl MemTable.applyShard
      (db.memtable, updates)).1 }

theorem finishGroup_applyShard (batches : List WriteBatch) (updates : PendingUpdates)
    (shardIndex : Fin kShardCount) (db : DB) :
    finishGroup batches (MemTable.applyShard (db.memtable, updates) shardIndex).2
        (shardIndex.val + 1)
        { db with memtable := (MemTable.applyShard (db.memtable, updates) shardIndex).1 } =
      db.finishGroup batches updates shardIndex.val := by
  have hdrop : (List.finRange kShardCount).drop shardIndex.val =
      shardIndex :: (List.finRange kShardCount).drop (shardIndex.val + 1) := by
    rw [List.drop_eq_getElem_cons (by simp)]
    simp
  simp only [finishGroup, hdrop, List.foldl_cons]

theorem finishGroup_end (batches : List WriteBatch) (updates : PendingUpdates) (db : DB) :
    db.finishGroup batches updates kShardCount = db.endGroup batches := by
  rw [finishGroup, List.drop_of_length_le (by simp)]
  rfl

end DB

/-! ### Steps of the queue beside a call -/

namespace GroupCommit

variable {host : Host} {s t : GroupCommit}

theorem mem_calls_inline {before after : List (Writer × Call)} {writer : Writer} {call : Call}
    (h : s.inline = before ++ (writer, call) :: after) : ([writer], call) ∈ s.calls := by
  simp [calls, h]

theorem mem_calls_thread {group : List Writer} {call : Call} (h : s.thread = .writing group call) :
    (group, call) ∈ s.calls := by
  simp [calls, h, Phase.calls]

theorem InOrder.calls_of_quiet (h : InOrder s) (hwriting : s.queue.writing = false) :
    s.calls = [] := by
  obtain ⟨hinline, hbusy⟩ := h.quiet hwriting
  simp [calls, hinline, calls_of_not_busy hbusy]

/-- While every call has returned, the steps of the queue do not look at the database. -/
theorem Step.withDb (h : Step host s t) (hreturned : ∀ c ∈ s.calls, c.2 ≠ .started) (db : DB) :
    Step host { s with db } { t with db } := by
  cases h with
  | enterInline writer hnew hbatch henqueue => exact .enterInline writer hnew hbatch henqueue
  | enterQueued writer hnew hbatch henqueue => exact .enterQueued writer hnew hbatch henqueue
  | inlineCall io writer before after hinline =>
    exact absurd rfl (hreturned _ (mem_calls_inline hinline))
  | inlineFinish writer status before after hinline =>
    exact .inlineFinish writer status before after hinline
  | inlineResume writer before after hreturning =>
    exact .inlineResume writer before after hreturning
  | wakeGather hthread hwakes hstays hbegin => exact .wakeGather hthread hwakes hstays hbegin
  | wakeCollect hthread hwakes hstays hbegin => exact .wakeCollect hthread hwakes hstays hbegin
  | collect hthread => exact .collect hthread
  | threadCall io group hthread => exact absurd rfl (hreturned _ (mem_calls_thread hthread))
  | threadFinish group status hthread => exact .threadFinish group status hthread
  | threadResume writer pending hthread => exact .threadResume writer pending hthread
  | threadLoop hthread => exact .threadLoop hthread
  | threadExit hthread hexits => exact .threadExit hthread hexits
  | stop => exact .stop

theorem Step.db_eq (h : Step host s t) (hreturned : ∀ c ∈ s.calls, c.2 ≠ .started) :
    t.db = s.db := by
  cases h with
  | inlineCall io writer before after hinline =>
    exact absurd rfl (hreturned _ (mem_calls_inline hinline))
  | threadCall io group hthread => exact absurd rfl (hreturned _ (mem_calls_thread hthread))
  | _ => rfl

/-- A call that has returned stays the only one until its group is finished. -/
theorem Step.calls_eq (h : Step host s t) (horder : InOrder s)
    (hrun : s.queue.stopWriter = false) {group : List Writer} {status : Status}
    (hcalls : s.calls = [(group, .returned status)]) (hfinished : t.finished = s.finished) :
    t.calls = s.calls := by
  have hbusy : s.queue.writing ≠ false := by
    intro hwriting
    simp [horder.calls_of_quiet hwriting] at hcalls
  have hreturned : ∀ c ∈ s.calls, c.2 ≠ .started := by simp [hcalls]
  cases h with
  | enterInline writer hnew hbatch henqueue =>
    exact absurd (WriteQueue.enqueue_inline henqueue).1 hbusy
  | enterQueued => rfl
  | inlineCall io writer before after hinline =>
    exact absurd rfl (hreturned _ (mem_calls_inline hinline))
  | inlineFinish => simp [publish] at hfinished
  | inlineResume => rfl
  | wakeGather hthread hwakes => exact absurd (WriteQueue.writing_of_wakes hwakes hrun) hbusy
  | wakeCollect hthread hwakes => exact absurd (WriteQueue.writing_of_wakes hwakes hrun) hbusy
  | collect hthread =>
    have hinline := horder.thread_alone (by rw [hthread]; rfl)
    simp [calls, hthread, hinline, Phase.calls] at hcalls
  | threadCall io group hthread => exact absurd rfl (hreturned _ (mem_calls_thread hthread))
  | threadFinish => simp [publish] at hfinished
  | threadResume writer pending hthread | threadLoop hthread | threadExit hthread =>
    simp [calls, hthread, Phase.calls]
  | stop => rfl

theorem Step.finished_prefix (h : Step host s t) : s.finished <+: t.finished := by
  cases h.event with
  | silent _ hfinished => simp [hfinished]
  | finishes group status _ _ hfinished => simp [hfinished]
  | resumes _ _ hfinished => simp [hfinished]

theorem committed_call (host : Host) (s : GroupCommit) (io : WriteIo) (group : List Writer) :
    (s.call host io group).committed = if (s.callStatus host io group).ok then
      s.committed ++ [s.db.nextGroup (group.map Writer.batch)] else s.committed := rfl

theorem failed_of_committed {io : WriteIo} {group : List Writer}
    (h : (s.call host io group).committed = s.committed) :
    (s.callStatus host io group).ok = false := by
  rw [committed_call] at h
  cases hok : (s.callStatus host io group).ok with
  | false => rfl
  | true => simp [hok] at h

theorem succeeded_of_committed {io : WriteIo} {writers : List Writer} {group : Group}
    (h : (s.call host io writers).committed = s.committed ++ [group]) :
    (s.callStatus host io writers).ok = true ∧
      group = s.db.nextGroup (writers.map Writer.batch) := by
  rw [committed_call] at h
  cases hok : (s.callStatus host io writers).ok with
  | false => simp [hok] at h
  | true =>
    simp only [hok, if_true, List.append_cancel_left_eq, List.cons.injEq, and_true] at h
    exact ⟨rfl, h.symm⟩

theorem Access.succeeded_eq (h : Access host s t) (hcommitted : t.committed = s.committed) :
    t.succeeded = s.succeeded := by
  cases h with
  | none _ _ _ _ hsucceeded => exact hsucceeded
  | call io group _ _ _ hcall hsucceeded =>
    have hfailed := failed_of_committed (hcall.symm.trans hcommitted)
    simpa [hfailed] using hsucceeded

/-- A step that commits no group leaves the table alone. -/
theorem Access.memtable_eq (h : Access host s t) (hcommitted : t.committed = s.committed) :
    t.db.memtable = s.db.memtable := by
  cases h with
  | none hdb => rw [hdb]
  | call io group hdb _ _ hcall =>
    have hfailed := failed_of_committed (hcall.symm.trans hcommitted)
    rw [callStatus, DB.status_writeGroup] at hfailed
    obtain ⟨after, hwrite, -, -, hmemtable⟩ := DB.writeGroup_failed s.file hfailed
    rw [hdb, GroupCommit.call, hwrite, hmemtable]

theorem Access.succeeded_append (h : Access host s t) {group : Group}
    (hcommitted : t.committed = s.committed ++ [group]) :
    t.succeeded.length = s.succeeded.length + 1 := by
  cases h with
  | none _ _ _ hsame _ => simp [hsame] at hcommitted
  | call io group _ _ _ hcall hsucceeded =>
    have hok := (succeeded_of_committed (hcall.symm.trans hcommitted)).1
    simp [hsucceeded, hok]

/-- A step that commits a group is a call that succeeds. -/
theorem Step.commits (h : Step host s t) (horder : InOrder s) {group : Group}
    (hcommitted : t.committed = s.committed ++ [group]) :
    ∃ io writers, (s.callStatus host io writers).ok = true ∧
      group = s.db.nextGroup (writers.map Writer.batch) ∧ t.db = (s.call host io writers).db ∧
      t.queue = s.queue ∧ t.resumed = s.resumed ∧ t.finished = s.finished ∧
      t.calls = [(writers, .returned (s.callStatus host io writers))] := by
  cases h with
  | inlineCall io writer before after hinline =>
    obtain ⟨hok, hgroup⟩ := succeeded_of_committed (s := s) hcommitted
    obtain ⟨rfl, rfl, hbusy⟩ := horder.inline_alone hinline
    refine ⟨io, [writer], hok, hgroup, rfl, rfl, rfl, rfl, ?_⟩
    simp [calls, call, calls_of_not_busy hbusy]
  | threadCall io writers hthread =>
    obtain ⟨hok, hgroup⟩ := succeeded_of_committed (s := s) hcommitted
    have hinline := horder.thread_alone (by rw [hthread]; rfl)
    refine ⟨io, writers, hok, hgroup, rfl, rfl, rfl, rfl, ?_⟩
    simp [calls, call, hinline, Phase.calls]
  | wakeCollect => simp [GroupCommit.collect] at hcommitted
  | collect => simp [GroupCommit.collect] at hcommitted
  | _ => simp [publish] at hcommitted

end GroupCommit

/-! ### The queue is ahead of its readers -/

/-- Calls of `ApplyBatches` for groups, on the table of other groups. -/
theorem applyCalls_committedTable (groups more : List Group) :
    MemTable.applyCalls (committedTable groups) (more.map Group.call) =
      committedTable (groups ++ more) := by
  induction more generalizing groups with
  | nil => rw [List.append_nil]; rfl
  | cons group more ih =>
    have hgroup : applyEntries (committedTable groups) group.call.baseSequence group.call.entries =
        committedTable (groups ++ [group]) := by
      rw [applyEntries_eq_run _ _ group.call.deleteEmpty, committedTable_append]
      rfl
    rw [List.append_cons, ← ih, ← hgroup]
    rfl

namespace Serving

/-- The write queue as the call in progress will leave it. -/
def ahead (s : Serving) : GroupCommit :=
  match s.shared.applying with
  | none => s.commit
  | some (call, shardIndex) =>
    { s.commit with db := s.commit.db.finishGroup call.batches s.shared.scratch shardIndex }

theorem ahead_eq (s : Serving) : s.ahead = { s.commit with db := s.ahead.db } := by
  unfold ahead
  split <;> rfl

/-- The queue, with the call in progress carried to its end, is a state of the write queue, and the
table is a state of the shared table, which gets one call for each group that is committed.  A call
in progress is the only one. -/
structure Writes (host : Host) (opened : List Group) (s : Serving) : Prop where
  reachable : Reachable (groupCommit host) s.ahead
  shared : ∃ start, start.slot host = committedTable opened ∧
    Reachable (sharedTable host start) s.shared
  table : s.shared.table = s.commit.db.memtable
  running : s.commit.queue.stopWriter = false
  fits : ∀ g ∈ s.commit.committed, g.Fits
  log : ∃ acked, s.commit.committed = opened ++ acked ∧ s.shared.calls = acked.map Group.call ∧
    acked.length = s.commit.succeeded.length
  call : s.shared.applying.isSome → ∃ group status, status.ok = true ∧
    s.commit.calls = [(group, .returned status)]
  shards : ∀ call shardIndex, s.shared.applying = some (call, shardIndex) →
    shardIndex ≤ kShardCount

variable {host : Host} {opened : List Group} {s t : Serving}

theorem Writes.invariant (h : s.Writes host opened) : GroupCommit.Invariant host s.ahead := by
  refine GroupCommit.invariant_of_reachable h.reachable ?_
  rw [s.ahead_eq]
  exact h.running

theorem Writes.inOrder (h : s.Writes host opened) : s.commit.InOrder := by
  have hinOrder := h.invariant.inOrder
  rw [s.ahead_eq] at hinOrder
  exact ⟨hinOrder.exclusive, hinOrder.order, hinOrder.fresh⟩

theorem Writes.delivered (h : s.Writes host opened) : s.commit.Delivered := by
  have hdelivered := h.invariant.delivered
  rw [s.ahead_eq] at hdelivered
  exact ⟨hdelivered.statuses, hdelivered.released, hdelivered.seen⟩

/-- The lists of `ApplyBatches` are empty between calls, as those of the database are. -/
theorem Writes.scratch_eq (h : s.Writes host opened) (hidle : s.shared.applying = none) :
    s.shared.scratch = s.commit.db.writeScratch.memtableUpdates := by
  obtain ⟨start, -, hshared⟩ := h.shared
  funext shard
  rw [(SharedTable.invariant_of_reachable hshared).idle hidle,
    s.commit.db.writeScratch.updatesEmpty]

theorem Writes.ahead_step (h : s.Writes host opened) (hst : Step host s t) :
    Relation.ReflTransGen (GroupCommit.Step host) s.ahead t.ahead := by
  cases hst with
  | queue g hst hrun hcommitted hfinished =>
    refine .single ?_
    unfold ahead
    cases happlying : s.shared.applying with
    | none => exact hst
    | some progress =>
      obtain ⟨group, status, hok, hcalls⟩ := h.call (by simp [happlying])
      have hreturned : ∀ c ∈ s.commit.calls, c.2 ≠ .started := by simp [hcalls]
      simp only [hst.db_eq hreturned]
      exact hst.withDb hreturned _
  | sync g group hidle hst hcommitted =>
    obtain ⟨io, writers, hok, rfl, hdb, -⟩ := hst.commits h.inOrder hcommitted
    have hahead : (s.sync host g (s.commit.db.nextGroup (writers.map Writer.batch))).ahead = g := by
      have hfinish := hdb.trans (DB.writeGroup_eq_steps hok)
      simp only [ahead, sync, SharedTable.scatter, h.scratch_eq hidle, DB.finishGroup,
        DB.memtable_beginGroup, List.drop_zero]
      exact congrArg (fun db => { g with db }) hfinish.symm
    rw [hahead]
    unfold ahead
    simp only [hidle]
    exact .single hst
  | applyShard call shardIndex happlying =>
    have hfinish := DB.finishGroup_applyShard call.batches s.shared.scratch shardIndex s.commit.db
    rw [← h.table] at hfinish
    simp only [ahead, applyShard, SharedTable.applyShard, happlying, hfinish]
    exact .refl
  | endCall call happlying =>
    simp only [ahead, endCall, SharedTable.finish, happlying, DB.finishGroup_end]
    exact .refl
  | get => exact .refl

/-- The table takes a step of its own, or none. -/
theorem shared_step (hst : Step host s t) :
    t.shared = s.shared ∨ SharedTable.Step host s.shared t.shared := by
  cases hst with
  | queue => exact .inl rfl
  | sync g group hidle => exact .inr (.scatter group.call hidle)
  | applyShard call shardIndex happlying => exact .inr (.applyShard call shardIndex happlying)
  | endCall call happlying => exact .inr (.finish call happlying)
  | get key => exact .inr (.get key)

theorem Writes.shared_reachable (h : s.Writes host opened) (hst : Step host s t) :
    ∃ start, start.slot host = committedTable opened ∧
      Reachable (sharedTable host start) t.shared := by
  obtain ⟨start, hstart, hshared⟩ := h.shared
  rcases shared_step hst with hsame | hstep
  · exact ⟨start, hstart, hsame ▸ hshared⟩
  · exact ⟨start, hstart, hshared.step hstep⟩

theorem writes_step (h : s.Writes host opened) (hst : Step host s t) : t.Writes host opened := by
  have hreachable := h.reachable.trans (h.ahead_step hst)
  have hshared := h.shared_reachable hst
  obtain ⟨acked, hlog, hcalled, hacked⟩ := h.log
  cases hst with
  | queue g hst hrun hcommitted hfinished =>
    have haccess := hst.access h.inOrder
    refine ⟨hreachable, hshared, h.table.trans (haccess.memtable_eq hcommitted).symm, hrun,
      hcommitted ▸ h.fits, ⟨acked, hcommitted.trans hlog, hcalled, ?_⟩, ?_, h.shards⟩
    · rw [hacked, haccess.succeeded_eq hcommitted]
    · intro happlying
      obtain ⟨group, status, hok, hcalls⟩ := h.call happlying
      have hkept := hst.calls_eq h.inOrder h.running hcalls (hfinished happlying)
      exact ⟨group, status, hok, hkept.trans hcalls⟩
  | sync g group hidle hst hcommitted =>
    obtain ⟨io, writers, hok, rfl, -, hqueue, -, -, hcalls⟩ := hst.commits h.inOrder hcommitted
    have hgroup := hok
    rw [GroupCommit.callStatus, DB.status_writeGroup] at hgroup
    obtain ⟨hgroup, -⟩ := DB.writeGroup_ok [] hgroup
    refine ⟨hreachable, hshared, h.table.trans (DB.memtable_beginGroup host _ _).symm, ?_, ?_,
      ⟨acked ++ [s.commit.db.nextGroup (writers.map Writer.batch)], ?_, ?_, ?_⟩, ?_, ?_⟩
    · simpa [sync, hqueue] using h.running
    · simp only [sync, hcommitted]
      exact List.forall_mem_append.mpr ⟨h.fits, List.forall_mem_singleton.mpr hgroup⟩
    · simp only [sync, hcommitted, hlog, List.append_assoc]
    · simp only [sync, SharedTable.calls_scatter hidle, hcalled, List.map_append,
        List.map_singleton]
    · have hsucceeded := (hst.access h.inOrder).succeeded_append hcommitted
      rw [List.length_append, hacked]
      exact hsucceeded.symm
    · exact fun _ => ⟨writers, _, hok, hcalls⟩
    · intro call shardIndex happlying
      obtain ⟨-, rfl⟩ := Prod.mk.inj (Option.some.inj happlying)
      exact Nat.zero_le _
  | applyShard call shardIndex happlying =>
    refine ⟨hreachable, hshared, rfl, h.running, h.fits,
      ⟨acked, hlog, (SharedTable.calls_applyShard happlying).trans hcalled, hacked⟩,
      fun _ => h.call (by simp [happlying]), ?_⟩
    intro call' index happlying'
    obtain ⟨-, rfl⟩ := Prod.mk.inj (Option.some.inj happlying')
    exact shardIndex.isLt
  | endCall call happlying =>
    exact ⟨hreachable, hshared, h.table, h.running, h.fits,
      ⟨acked, hlog, (SharedTable.calls_finish happlying).trans hcalled, hacked⟩,
      by simp [endCall, SharedTable.finish], by simp [endCall, SharedTable.finish]⟩
  | get =>
    exact ⟨hreachable, hshared, h.table, h.running, h.fits, ⟨acked, hlog, hcalled, hacked⟩, h.call,
      h.shards⟩

theorem writes_of_reachable (h : Reachable (serving host opened) s) : s.Writes host opened := by
  refine h.invariant ?_ fun s t _ hs hst => writes_step hs hst
  rintro s ⟨db, file, rest, hopen, hfits, rfl⟩
  exact ⟨.initial ⟨db, file, opened, rest, hopen, rfl⟩, ⟨db.memtable, hopen.slot, .initial rfl⟩,
    rfl, rfl, hfits, ⟨[], by simp, rfl, rfl⟩, by simp, by simp⟩

/-- The groups that show where the first `version` calls of `ApplyBatches` have arrived. -/
theorem Writes.shown_eq (h : s.Writes host opened) (version : Nat) :
    MemTable.applyCalls (committedTable opened) (s.shared.calls.take version) =
      committedTable (s.commit.committed.take (opened.length + version)) := by
  obtain ⟨acked, hlog, hcalled, -⟩ := h.log
  rw [hcalled, ← List.map_take, applyCalls_committedTable, hlog, List.take_length_add_append]

/-- What the shared table's own steps give: the slots of all keys, and the results of the reads. -/
theorem Writes.sharedInvariant (h : s.Writes host opened) :
    ∃ start, start.slot host = committedTable opened ∧ s.shared.Invariant host start := by
  obtain ⟨start, hstart, hshared⟩ := h.shared
  exact ⟨start, hstart, SharedTable.invariant_of_reachable hshared⟩

theorem Writes.get_eq (h : s.Writes host opened) (key : Bytes) :
    s.shared.table.get host key = readEntry (MemTable.applyCalls (committedTable opened)
      (s.shared.calls.take (s.shared.version host key))) key := by
  obtain ⟨start, hstart, hinv⟩ := h.sharedInvariant
  exact MemTable.get_eq_readEntry (hstart ▸ hinv.slots key)

theorem Writes.results (h : s.Writes host opened) {r : Read} (hr : r ∈ s.shared.reads) :
    r.version ≤ s.shared.calls.length ∧ r.result = readEntry
      (committedTable (s.commit.committed.take (opened.length + r.version))) r.key := by
  obtain ⟨start, hstart, hinv⟩ := h.sharedInvariant
  obtain ⟨hresult, -, hversion⟩ := hinv.results r hr
  rw [hstart, h.shown_eq] at hresult
  exact ⟨hversion, hresult⟩

/-- The group that the writer was in is one of these groups. -/
def Shows (s : Serving) (groups : List Group) (writer : Writer) : Prop :=
  ∃ f ∈ s.commit.finished, writer ∈ f.1 ∧ f.1.map Writer.batch ∈ groups.map Group.batches

/-- The groups that are in the log and whose writers have been told. -/
def told (s : Serving) : List (List Writer) :=
  (s.commit.finished.filter fun f => f.2.ok).map Prod.fst

theorem Writes.length_calls (h : s.Writes host opened) :
    s.shared.calls.length = s.commit.succeeded.length := by
  obtain ⟨acked, -, hcalled, hacked⟩ := h.log
  rw [hcalled, List.length_map, hacked]

/-- Only the call in progress, which nobody was told of, may be missing from a shard. -/
theorem Writes.told_le_version (h : s.Writes host opened) (key : Bytes) :
    s.told.length ≤ s.shared.version host key := by
  refine Nat.le_trans ?_ (SharedTable.finished_le_version key)
  have hlength := h.length_calls
  simp only [GroupCommit.succeeded, List.length_append, SharedTable.calls] at hlength
  cases happlying : s.shared.applying with
  | none =>
    simp only [happlying, Option.toList_none, List.map_nil, List.length_nil] at hlength
    rw [told]
    omega
  | some progress =>
    obtain ⟨group, status, hok, hcalls⟩ := h.call (by simp [happlying])
    simp only [happlying, hcalls, Option.toList_some, List.map_singleton, List.length_singleton,
      List.filter_singleton, Call.ok, hok, cond_true] at hlength
    rw [told]
    omega

theorem Writes.logged (h : s.Writes host opened) :
    ∃ acked, s.commit.committed = opened ++ acked ∧
      acked.map Group.batches = s.commit.succeeded.map (List.map Writer.batch) ∧
      (acked ≠ [] → encodeLog host s.commit.committed <+: s.commit.durable) := by
  obtain ⟨found, acked, hlog, hacked, hdurable⟩ := h.invariant.durable.logged
  rw [s.ahead_eq] at hlog hacked hdurable
  obtain ⟨groups, hgroups, -, hlength⟩ := h.log
  have hlength' := congrArg List.length hacked
  rw [List.length_map, List.length_map] at hlength'
  obtain ⟨rfl, rfl⟩ := List.append_inj' (hgroups.symm.trans hlog) (hlength.trans hlength'.symm)
  exact ⟨groups, hlog, hacked, hdurable⟩

theorem Writes.shows (h : s.Writes host opened) (key : Bytes) {w : Writer × Status}
    (hw : w ∈ s.commit.resumed) (hok : w.2.ok = true) :
    s.Shows (s.commit.committed.take (opened.length + s.shared.version host key)) w.1 := by
  obtain ⟨f, hf, hwriter, hstatus⟩ := h.delivered.exists_finished hw
  obtain ⟨acked, hlog, hacked, -⟩ := h.logged
  refine ⟨f, hf, hwriter, ?_⟩
  have htold : f.1 ∈ s.told :=
    List.mem_map_of_mem (List.mem_filter.mpr ⟨hf, by rw [← hstatus, hok]⟩)
  have hfirst : (acked.take s.told.length).map Group.batches =
      s.told.map (List.map Writer.batch) := by
    rw [List.map_take, hacked, GroupCommit.succeeded, List.map_append, List.take_left']
    · rfl
    · rw [List.length_map]
      rfl
  have hgroup : f.1.map Writer.batch ∈ (acked.take s.told.length).map Group.batches :=
    hfirst ▸ List.mem_map_of_mem htold
  obtain ⟨group, hmem, hbatches⟩ := List.mem_map.mp hgroup
  refine List.mem_map.mpr ⟨group, ?_, hbatches⟩
  rw [hlog, List.take_length_add_append]
  exact List.mem_append_right _ (List.take_subset_take_left _ (h.told_le_version key) hmem)

/-- A read shows what the writers that had gone on by then have committed. -/
structure Own (opened : List Group) (s : Serving) : Prop where
  length : s.resumedAt.length = s.shared.reads.length
  shows : ∀ r ∈ s.reads, ∀ w ∈ r.2, w.2.ok = true →
    s.Shows (s.commit.committed.take (opened.length + r.1.version)) w.1

theorem committed_step (hst : Step host s t) : s.commit.committed <+: t.commit.committed := by
  cases hst with
  | queue g hst hrun hcommitted => simp [hcommitted]
  | sync g group hidle hst hcommitted => simp [sync, hcommitted]
  | applyShard | endCall | get => exact List.prefix_rfl

theorem finished_step (hst : Step host s t) : s.commit.finished <+: t.commit.finished := by
  cases hst with
  | queue g hst => exact hst.finished_prefix
  | sync g group hidle hst => exact hst.finished_prefix
  | applyShard | endCall | get => exact List.prefix_rfl

theorem Shows.step (hst : Step host s t) {n : Nat} {writer : Writer}
    (h : s.Shows (s.commit.committed.take n) writer) :
    t.Shows (t.commit.committed.take n) writer := by
  obtain ⟨f, hf, hwriter, hgroup⟩ := h
  obtain ⟨more, hmore⟩ := committed_step hst
  refine ⟨f, (finished_step hst).subset hf, hwriter, ?_⟩
  rw [← hmore, List.take_append, List.map_append]
  exact List.mem_append_left _ hgroup

theorem Own.step (hwrites : s.Writes host opened) (h : s.Own opened) (hst : Step host s t) :
    t.Own opened := by
  have hkept : ∀ r ∈ s.reads, ∀ w ∈ r.2, w.2.ok = true →
      t.Shows (t.commit.committed.take (opened.length + r.1.version)) w.1 :=
    fun r hr w hw hok => (h.shows r hr w hw hok).step hst
  cases hst with
  | queue | sync | applyShard | endCall => exact ⟨h.length, hkept⟩
  | get key =>
    refine ⟨by simp [get, SharedTable.get, h.length], ?_⟩
    have hreads : (s.get host key).reads = s.reads ++
        [(⟨key, s.shared.table.get host key, s.shared.version host key, s.shared.finished.length⟩,
          s.commit.resumed)] := List.zip_append h.length.symm
    rw [hreads]
    refine List.forall_mem_append.mpr ⟨hkept, List.forall_mem_singleton.mpr ?_⟩
    exact fun w hw hok => hwrites.shows key hw hok

end Serving

end StorageEngine
