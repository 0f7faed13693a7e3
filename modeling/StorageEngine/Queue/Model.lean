import StorageEngine.Db.Sessions

/-! The write queue of `db.cc` as a transition system.  Its steps are the critical sections of
`enqueueAsyncWriter` and `writerLoop`, the calls of `writeGroup` between them, and the resumption of
the waiting coroutines.  A client that finds the queue quiet commits its batch inline; the others
wait for the writer thread, which commits all waiting batches as one group. -/

namespace StorageEngine

open Wal Io Transition

/-- A `WriteAwaiter`: who waits, and for which batch. -/
structure Writer where
  id : Nat
  batch : WriteBatch
  deriving DecidableEq

/-- The members that `writeMutex_` guards. -/
structure WriteQueue where
  writing : Bool := false
  writers : List Writer := []
  groupCommitArmed : Bool := false
  stopWriter : Bool := false

namespace WriteQueue

/-- The first critical section of `enqueueAsyncWriter`; `true` when the writer has to wait. -/
def enqueue (queue : WriteQueue) (writer : Writer) : WriteQueue × Bool :=
  if !queue.writing && queue.writers.isEmpty && !queue.groupCommitArmed then
    ({ queue with writing := true }, false)
  else
    let writers := queue.writers ++ [writer]
    if queue.writing || writers.length > 1 then
      ({ queue with writers, groupCommitArmed := true }, true)
    else
      ({ queue with writers }, true)

/-- The predicate of the first wait in `writerLoop`. -/
def wakes (queue : WriteQueue) : Bool :=
  queue.stopWriter || (!queue.writing && !queue.writers.isEmpty)

def exits (queue : WriteQueue) : Bool := queue.stopWriter && queue.writers.isEmpty

/-- What `writerLoop` does after the first wait; `true` when it waits for more writers. -/
def begin (queue : WriteQueue) : WriteQueue × Bool :=
  let queue := { queue with writing := true }
  if queue.groupCommitArmed || queue.writers.length > 1 then
    ({ queue with groupCommitArmed := false }, true)
  else
    (queue, false)

def drain (group : List Writer) : List Writer → List Writer
  | [] => group
  | writer :: writers => drain (group ++ [writer]) writers

def finish (queue : WriteQueue) (group : List Writer) : WriteQueue :=
  let queue := if group.length > 1 then { queue with groupCommitArmed := true } else queue
  { queue with writing := false }

theorem enqueue_inline {queue : WriteQueue} {writer : Writer}
    (h : (queue.enqueue writer).2 = false) : queue.writing = false ∧ queue.writers = [] ∧
      (queue.enqueue writer).1 = { queue with writing := true } := by
  unfold enqueue at h ⊢
  simp only at h ⊢
  split at h
  · next hquiet =>
    rw [if_pos hquiet]
    simp only [Bool.and_eq_true, Bool.not_eq_true', List.isEmpty_iff] at hquiet
    exact ⟨hquiet.1.1, hquiet.1.2, rfl⟩
  · split at h <;> contradiction

theorem enqueue_queued {queue : WriteQueue} {writer : Writer}
    (h : (queue.enqueue writer).2 = true) : ∃ armed, (queue.enqueue writer).1 =
      { queue with writers := queue.writers ++ [writer], groupCommitArmed := armed } := by
  unfold enqueue at h ⊢
  simp only at h ⊢
  split at h
  · contradiction
  · next hbusy =>
    rw [if_neg hbusy]
    split
    · exact ⟨true, rfl⟩
    · exact ⟨queue.groupCommitArmed, rfl⟩

theorem begin_eq (queue : WriteQueue) : ∃ armed, queue.begin.1 =
    { queue with writing := true, groupCommitArmed := armed } := by
  unfold begin
  simp only
  split
  · exact ⟨false, rfl⟩
  · exact ⟨queue.groupCommitArmed, rfl⟩

theorem drain_eq (group writers : List Writer) : drain group writers = group ++ writers := by
  induction writers generalizing group with
  | nil => simp [drain]
  | cons writer writers ih => simp [drain, ih]

theorem finish_eq (queue : WriteQueue) (group : List Writer) : ∃ armed, queue.finish group =
    { queue with writing := false, groupCommitArmed := armed } := by
  unfold finish
  split
  · exact ⟨true, rfl⟩
  · exact ⟨queue.groupCommitArmed, rfl⟩

theorem writing_of_wakes {queue : WriteQueue} (h : queue.wakes = true)
    (hrun : queue.stopWriter = false) : queue.writing = false := by
  simp only [wakes, hrun, Bool.false_or, Bool.and_eq_true, Bool.not_eq_true'] at h
  exact h.1

theorem writers_of_wakes {queue : WriteQueue} (hwakes : queue.wakes = true)
    (hstays : queue.exits = false) : queue.writers ≠ [] := by
  intro hwriters
  cases hstop : queue.stopWriter <;> simp [wakes, exits, hwriters, hstop] at hwakes hstays

end WriteQueue

/-- A call of `writeGroup`: it runs, or it has returned and the caller has yet to take the lock. -/
inductive Call where
  | started
  | returned (status : Status)

inductive Phase where
  | waiting
  | gathering
  | writing (group : List Writer) (call : Call)
  | resuming (pending : List Writer)
  | exited

/-- The queue, the clients inside `enqueueAsyncWriter`, the writer thread, the status field of each
writer, the database, its file, and the file as the last successful sync left it.  The four lists
at the end are the history: the order in which the writers took the lock, the groups that are
finished, the writers that went on and the status they saw, and the groups in the log. -/
structure GroupCommit where
  queue : WriteQueue := {}
  inline : List (Writer × Call) := []
  returning : List Writer := []
  thread : Phase := .waiting
  status : Nat → Status := fun _ => .Ok
  db : DB
  file : Bytes
  durable : Bytes := []
  arrivals : List Writer := []
  finished : List (List Writer × Status) := []
  resumed : List (Writer × Status) := []
  committed : List Group

namespace GroupCommit

/-- `writeGroup` for the writers of a group. -/
def call (host : Host) (s : GroupCommit) (io : WriteIo) (group : List Writer) : GroupCommit :=
  let batches := group.map Writer.batch
  let (status, db, file) := s.db.writeGroup host io batches s.file
  { s with
    db
    file
    durable := if io.synced then file else s.durable
    committed := if status.ok then s.committed ++ [s.db.nextGroup batches] else s.committed }

def callStatus (host : Host) (s : GroupCommit) (io : WriteIo) (group : List Writer) : Status :=
  (s.db.writeGroup host io (group.map Writer.batch) s.file).1

def collect (s : GroupCommit) : GroupCommit :=
  { s with
    queue := { s.queue with writers := [] }
    thread := .writing (WriteQueue.drain [] s.queue.writers) .started }

/-- Every writer of a group gets the status of the group, and the group joins the history. -/
def publish (s : GroupCommit) (group : List Writer) (status : Status) : GroupCommit :=
  { s with
    status := fun id => if id ∈ group.map Writer.id then status else s.status id
    finished := s.finished ++ [(group, status)] }

inductive Step (host : Host) : GroupCommit → GroupCommit → Prop
  | enterInline {s : GroupCommit} (writer : Writer) (hnew : writer.id ∉ s.arrivals.map Writer.id)
      (hbatch : writer.batch.empty = false) (henqueue : (s.queue.enqueue writer).2 = false) :
      Step host s { s with
        queue := (s.queue.enqueue writer).1
        inline := s.inline ++ [(writer, .started)]
        arrivals := s.arrivals ++ [writer] }
  | enterQueued {s : GroupCommit} (writer : Writer) (hnew : writer.id ∉ s.arrivals.map Writer.id)
      (hbatch : writer.batch.empty = false) (henqueue : (s.queue.enqueue writer).2 = true) :
      Step host s { s with
        queue := (s.queue.enqueue writer).1
        arrivals := s.arrivals ++ [writer] }
  | inlineCall {s : GroupCommit} (io : WriteIo) (writer : Writer)
      (before after : List (Writer × Call))
      (hinline : s.inline = before ++ (writer, .started) :: after) :
      Step host s { s.call host io [writer] with
        inline := before ++ (writer, .returned (s.callStatus host io [writer])) :: after }
  | inlineFinish {s : GroupCommit} (writer : Writer) (status : Status)
      (before after : List (Writer × Call))
      (hinline : s.inline = before ++ (writer, .returned status) :: after) :
      Step host s { s.publish [writer] status with
        queue := { s.queue with writing := false }
        inline := before ++ after
        returning := s.returning ++ [writer] }
  | inlineResume {s : GroupCommit} (writer : Writer) (before after : List Writer)
      (hreturning : s.returning = before ++ writer :: after) :
      Step host s { s with
        returning := before ++ after
        resumed := s.resumed ++ [(writer, s.status writer.id)] }
  | wakeGather {s : GroupCommit} (hthread : s.thread = .waiting) (hwakes : s.queue.wakes = true)
      (hstays : s.queue.exits = false) (hbegin : s.queue.begin.2 = true) :
      Step host s { s with queue := s.queue.begin.1, thread := .gathering }
  | wakeCollect {s : GroupCommit} (hthread : s.thread = .waiting) (hwakes : s.queue.wakes = true)
      (hstays : s.queue.exits = false) (hbegin : s.queue.begin.2 = false) :
      Step host s { s with queue := s.queue.begin.1 }.collect
  | collect {s : GroupCommit} (hthread : s.thread = .gathering) : Step host s s.collect
  | threadCall {s : GroupCommit} (io : WriteIo) (group : List Writer)
      (hthread : s.thread = .writing group .started) :
      Step host s { s.call host io group with
        thread := .writing group (.returned (s.callStatus host io group)) }
  | threadFinish {s : GroupCommit} (group : List Writer) (status : Status)
      (hthread : s.thread = .writing group (.returned status)) :
      Step host s { s.publish group status with
        queue := s.queue.finish group
        thread := .resuming group }
  | threadResume {s : GroupCommit} (writer : Writer) (pending : List Writer)
      (hthread : s.thread = .resuming (writer :: pending)) :
      Step host s { s with
        thread := .resuming pending
        resumed := s.resumed ++ [(writer, s.status writer.id)] }
  | threadLoop {s : GroupCommit} (hthread : s.thread = .resuming []) :
      Step host s { s with thread := .waiting }
  | threadExit {s : GroupCommit} (hthread : s.thread = .waiting) (hexits : s.queue.exits = true) :
      Step host s { s with thread := .exited }
  | stop {s : GroupCommit} : Step host s { s with queue := { s.queue with stopWriter := true } }

end GroupCommit

/-- The queue of a database that was just opened. -/
def groupCommit (host : Host) : System GroupCommit where
  initial s := ∃ db file committed rest, OpenOn host committed rest file db ∧
    s = { db, file, committed }
  step := GroupCommit.Step host

theorem initial_empty (host : Host) :
    (groupCommit host).initial { db := {}, file := [], committed := [] } :=
  ⟨{}, [], [], [], ⟨rfl, rfl, rfl⟩, rfl⟩

end StorageEngine
