import StorageEngine.Queue.Shutdown

/-! Wake-ups.  The critical sections of the write queue once more, with the notifications between
them as steps of their own and with the waits of the writer thread taken apart: it evaluates the
predicate, parks, and is woken by a notification, by a time-out, or for no reason.  A client that is
queued notifies while it holds the lock, one that commits inline after it has released it. -/

namespace StorageEngine

open Transition Relation

/-- The options that say how many writers `writerLoop` waits for. -/
structure Options where
  groupCommitTargetSize : Nat := 8
  adaptiveGroupCommit : Bool := true
  highPressureGroupCommitTargetSize : Nat := 16
  highPressureGroupCommitQueueThreshold : Nat := 10

def Options.targetSize (options : Options) (queue : WriteQueue) : Nat :=
  if options.adaptiveGroupCommit &&
      options.highPressureGroupCommitQueueThreshold ≤ queue.writers.length then
    options.highPressureGroupCommitTargetSize
  else
    options.groupCommitTargetSize

/-- The predicate of the second wait in `writerLoop`. -/
def WriteQueue.gathered (queue : WriteQueue) (targetSize : Nat) : Bool :=
  queue.stopWriter || targetSize ≤ queue.writers.length

/-- Where the writer thread is.  In either wait it is about to evaluate the predicate under the
lock, or it is parked and has or has not been notified since. -/
inductive Worker where
  | checking
  | parked (notified : Bool)
  | gathering (targetSize : Nat)
  | gatherParked (targetSize : Nat) (notified : Bool)
  | writing (group : List Writer)
  | notifying (group : List Writer)
  | resuming (group : List Writer)

/-- `writerCv_.notify_one()`; no other thread waits on that variable. -/
def Worker.notify : Worker → Worker
  | .parked _ => .parked true
  | .gatherParked targetSize _ => .gatherParked targetSize true
  | worker => worker

/-- `holder` is the client that holds the lock after it was queued, with whether it has notified;
`notifiers` are the inline clients that have released the lock and have yet to notify. -/
structure Wakeups where
  queue : WriteQueue := {}
  arrivals : List Writer := []
  holder : Option (Writer × Bool) := none
  inline : List Writer := []
  notifiers : List Writer := []
  worker : Worker := .checking

namespace Wakeups

def collect (s : Wakeups) : Wakeups :=
  { s with
    queue := { s.queue with writers := [] }
    worker := .writing (WriteQueue.drain [] s.queue.writers) }

inductive Step (options : Options) : Wakeups → Wakeups → Prop
  | enterInline {s : Wakeups} (writer : Writer) (hnew : writer.id ∉ s.arrivals.map Writer.id)
      (hbatch : writer.batch.empty = false) (hfree : s.holder = none)
      (henqueue : (s.queue.enqueue writer).2 = false) :
      Step options s { s with
        queue := (s.queue.enqueue writer).1
        arrivals := s.arrivals ++ [writer]
        inline := s.inline ++ [writer] }
  | enterQueued {s : Wakeups} (writer : Writer) (hnew : writer.id ∉ s.arrivals.map Writer.id)
      (hbatch : writer.batch.empty = false) (hfree : s.holder = none)
      (henqueue : (s.queue.enqueue writer).2 = true) :
      Step options s { s with
        queue := (s.queue.enqueue writer).1
        arrivals := s.arrivals ++ [writer]
        holder := some (writer, false) }
  | queuedNotify {s : Wakeups} (writer : Writer) (hholder : s.holder = some (writer, false)) :
      Step options s { s with holder := some (writer, true), worker := s.worker.notify }
  | unlock {s : Wakeups} (writer : Writer) (hholder : s.holder = some (writer, true)) :
      Step options s { s with holder := none }
  | inlineFinish {s : Wakeups} (writer : Writer) (before after : List Writer)
      (hinline : s.inline = before ++ writer :: after) (hfree : s.holder = none) :
      Step options s { s with
        queue := { s.queue with writing := false }
        inline := before ++ after
        notifiers := s.notifiers ++ [writer] }
  | inlineNotify {s : Wakeups} (writer : Writer) (before after : List Writer)
      (hnotifiers : s.notifiers = before ++ writer :: after) :
      Step options s { s with notifiers := before ++ after, worker := s.worker.notify }
  | park {s : Wakeups} (hworker : s.worker = .checking) (hfree : s.holder = none)
      (hwakes : s.queue.wakes = false) : Step options s { s with worker := .parked false }
  | wake {s : Wakeups} (hworker : s.worker = .parked true) :
      Step options s { s with worker := .checking }
  | spurious {s : Wakeups} (hworker : s.worker = .parked false) :
      Step options s { s with worker := .checking }
  | beginGather {s : Wakeups} (hworker : s.worker = .checking) (hfree : s.holder = none)
      (hwakes : s.queue.wakes = true) (hstays : s.queue.exits = false)
      (hbegin : s.queue.begin.2 = true) :
      Step options s { s with
        queue := s.queue.begin.1
        worker := .gathering (options.targetSize s.queue) }
  | beginCollect {s : Wakeups} (hworker : s.worker = .checking) (hfree : s.holder = none)
      (hwakes : s.queue.wakes = true) (hstays : s.queue.exits = false)
      (hbegin : s.queue.begin.2 = false) :
      Step options s { s with queue := s.queue.begin.1 }.collect
  | gatherPark {s : Wakeups} (targetSize : Nat) (hworker : s.worker = .gathering targetSize)
      (hfree : s.holder = none) (hgathered : s.queue.gathered targetSize = false) :
      Step options s { s with worker := .gatherParked targetSize false }
  | gatherWake {s : Wakeups} (targetSize : Nat)
      (hworker : s.worker = .gatherParked targetSize true) :
      Step options s { s with worker := .gathering targetSize }
  | gatherSpurious {s : Wakeups} (targetSize : Nat)
      (hworker : s.worker = .gatherParked targetSize false) :
      Step options s { s with worker := .gathering targetSize }
  | gatherTimeout {s : Wakeups} (targetSize : Nat) (notified : Bool)
      (hworker : s.worker = .gatherParked targetSize notified) (hfree : s.holder = none) :
      Step options s s.collect
  | collect {s : Wakeups} (targetSize : Nat) (hworker : s.worker = .gathering targetSize)
      (hfree : s.holder = none) (hgathered : s.queue.gathered targetSize = true) :
      Step options s s.collect
  | threadFinish {s : Wakeups} (group : List Writer) (hworker : s.worker = .writing group)
      (hfree : s.holder = none) :
      Step options s { s with queue := s.queue.finish group, worker := .notifying group }
  | threadNotify {s : Wakeups} (group : List Writer) (hworker : s.worker = .notifying group) :
      Step options s { s with worker := .resuming group }
  | threadLoop {s : Wakeups} (group : List Writer) (hworker : s.worker = .resuming group) :
      Step options s { s with worker := .checking }

end Wakeups

def wakeups (options : Options) : System Wakeups where
  initial s := s = {}
  step := Wakeups.Step options

/-! ### The wake-ups refine the queue -/

/-- Parking is part of waiting, and so is the notification of a finished group of resuming it. -/
def Worker.phase : Worker → Phase
  | .checking => .waiting
  | .parked _ => .waiting
  | .gathering _ => .gathering
  | .gatherParked _ _ => .gathering
  | .writing group => .writing group .started
  | .notifying group => .resuming group
  | .resuming group => .resuming group

theorem Worker.phase_notify (worker : Worker) : worker.notify.phase = worker.phase := by
  cases worker <;> rfl

namespace GroupCommit

theorem arrivals_of_drain {host : Host} {s t : GroupCommit}
    (h : ReflTransGen (Drain host) s t) : t.arrivals = s.arrivals := by
  induction h with
  | refl => rfl
  | tail _ hstep ih => exact hstep.2.trans ih

theorem exists_inlineFinish (host : Host) {s : GroupCommit} {writer : Writer}
    {before after : List (Writer × Call)} (h : s.inline = before ++ (writer, .started) :: after) :
    ∃ t, ReflTransGen (Step host) s t ∧ t.queue = { s.queue with writing := false } ∧
      t.arrivals = s.arrivals ∧ t.inline = before ++ after ∧ t.thread = s.thread := by
  have hcall : Step host s _ := .inlineCall ⟨.submitFailed, 0⟩ writer before after h
  exact ⟨_, (ReflTransGen.single hcall).tail (.inlineFinish writer _ before after rfl), rfl, rfl,
    rfl, rfl⟩

theorem exists_threadFinish (host : Host) {s : GroupCommit} {group : List Writer}
    (h : s.thread = .writing group .started) :
    ∃ t, ReflTransGen (Step host) s t ∧ t.queue = s.queue.finish group ∧
      t.arrivals = s.arrivals ∧ t.inline = s.inline ∧ t.thread = .resuming group := by
  have hcall : Step host s _ := .threadCall ⟨.submitFailed, 0⟩ group h
  exact ⟨_, (ReflTransGen.single hcall).tail (.threadFinish group _ rfl), rfl, rfl, rfl, rfl⟩

end GroupCommit

namespace Wakeups

structure Refines (s : Wakeups) (g : GroupCommit) : Prop where
  queue : g.queue = s.queue
  arrivals : g.arrivals = s.arrivals
  inline : g.inline = s.inline.map fun writer => (writer, .started)
  thread : g.thread = s.worker.phase

variable {options : Options}

/-- A step that leaves the queue alone is none of the queue. -/
theorem Refines.silent {host : Host} {s s' : Wakeups} {g : GroupCommit} (h : s.Refines g)
    (hqueue : s'.queue = s.queue) (harrivals : s'.arrivals = s.arrivals)
    (hinline : s'.inline = s.inline) (hphase : s'.worker.phase = s.worker.phase) :
    ∃ g', ReflTransGen (GroupCommit.Step host) g g' ∧ s'.Refines g' :=
  ⟨g, .refl, h.queue.trans hqueue.symm, h.arrivals.trans harrivals.symm,
    hinline ▸ h.inline, h.thread.trans hphase.symm⟩

theorem Refines.collect {s : Wakeups} {g : GroupCommit} (h : s.Refines g) :
    s.collect.Refines g.collect :=
  ⟨by simp [Wakeups.collect, GroupCommit.collect, h.queue], h.arrivals, h.inline,
    by simp [Wakeups.collect, GroupCommit.collect, h.queue, Worker.phase]⟩

theorem refines_step (host : Host) {s s' : Wakeups} {g : GroupCommit} (h : s.Refines g)
    (hst : Step options s s') :
    ∃ g', ReflTransGen (GroupCommit.Step host) g g' ∧ s'.Refines g' := by
  cases hst with
  | enterInline writer hnew hbatch hfree henqueue =>
    rw [← h.arrivals] at hnew
    rw [← h.queue] at henqueue
    exact ⟨_, .single (.enterInline writer hnew hbatch henqueue), by rw [h.queue],
      by rw [h.arrivals], by simp [h.inline], h.thread⟩
  | enterQueued writer hnew hbatch hfree henqueue =>
    rw [← h.arrivals] at hnew
    rw [← h.queue] at henqueue
    exact ⟨_, .single (.enterQueued writer hnew hbatch henqueue), by rw [h.queue],
      by rw [h.arrivals], h.inline, h.thread⟩
  | queuedNotify => exact h.silent rfl rfl rfl s.worker.phase_notify
  | unlock => exact h.silent rfl rfl rfl rfl
  | inlineFinish writer before after hinline hfree =>
    have hstarted := h.inline
    rw [hinline, List.map_append, List.map_cons] at hstarted
    obtain ⟨g', hrun, hqueue, harrivals, hrest, hthread⟩ :=
      GroupCommit.exists_inlineFinish host hstarted
    exact ⟨g', hrun, by rw [hqueue, h.queue], harrivals.trans h.arrivals, by simp [hrest],
      hthread.trans h.thread⟩
  | inlineNotify => exact h.silent rfl rfl rfl s.worker.phase_notify
  | park hworker => exact h.silent rfl rfl rfl (by rw [hworker]; rfl)
  | wake hworker => exact h.silent rfl rfl rfl (by rw [hworker]; rfl)
  | spurious hworker => exact h.silent rfl rfl rfl (by rw [hworker]; rfl)
  | beginGather hworker hfree hwakes hstays hbegin =>
    have hthread : g.thread = .waiting := by rw [h.thread, hworker]; rfl
    rw [← h.queue] at hwakes hstays hbegin
    exact ⟨_, .single (.wakeGather hthread hwakes hstays hbegin), by rw [h.queue], h.arrivals,
      h.inline, rfl⟩
  | beginCollect hworker hfree hwakes hstays hbegin =>
    have hthread : g.thread = .waiting := by rw [h.thread, hworker]; rfl
    rw [← h.queue] at hwakes hstays hbegin
    have hbegun : Refines { s with queue := s.queue.begin.1 }
        { g with queue := g.queue.begin.1 } := ⟨by rw [h.queue], h.arrivals, h.inline, h.thread⟩
    exact ⟨_, .single (.wakeCollect hthread hwakes hstays hbegin), hbegun.collect⟩
  | gatherPark targetSize hworker => exact h.silent rfl rfl rfl (by rw [hworker]; rfl)
  | gatherWake targetSize hworker => exact h.silent rfl rfl rfl (by rw [hworker]; rfl)
  | gatherSpurious targetSize hworker => exact h.silent rfl rfl rfl (by rw [hworker]; rfl)
  | gatherTimeout targetSize notified hworker hfree =>
    have hthread : g.thread = .gathering := by rw [h.thread, hworker]; rfl
    exact ⟨_, .single (.collect hthread), h.collect⟩
  | collect targetSize hworker hfree hgathered =>
    have hthread : g.thread = .gathering := by rw [h.thread, hworker]; rfl
    exact ⟨_, .single (.collect hthread), h.collect⟩
  | threadFinish group hworker hfree =>
    obtain ⟨g', hrun, hqueue, harrivals, hinline, hthread⟩ :=
      GroupCommit.exists_threadFinish host (h.thread.trans (congrArg Worker.phase hworker))
    exact ⟨g', hrun, by rw [hqueue, h.queue], harrivals.trans h.arrivals, hinline.trans h.inline,
      hthread⟩
  | threadNotify group hworker => exact h.silent rfl rfl rfl (by rw [hworker]; rfl)
  | threadLoop group hworker =>
    obtain ⟨g', hrun, hthread, hqueue, hinline⟩ :=
      GroupCommit.exists_waiting host group (h.thread.trans (congrArg Worker.phase hworker))
    exact ⟨g', ReflTransGen.mono (fun _ _ hstep => hstep.1) _ _ hrun, hqueue.trans h.queue,
      (GroupCommit.arrivals_of_drain hrun).trans h.arrivals, hinline.trans h.inline, hthread⟩

/-- Every state of the wake-ups is a state of the queue. -/
theorem exists_refined (host : Host) {s : Wakeups} (h : Reachable (wakeups options) s) :
    ∃ g, Reachable (groupCommit host) g ∧ s.Refines g := by
  refine h.simulated ?_ fun s s' g hrefines hst => refines_step host hrefines hst
  rintro s rfl
  exact ⟨_, initial_empty host, rfl, rfl, rfl, rfl⟩

/-! ### No wake-up is lost -/

/-- The clients that have yet to call `notify_one`. -/
def mustNotify (s : Wakeups) : List Writer :=
  (match s.holder with
    | some (writer, false) => [writer]
    | _ => []) ++ s.notifiers

theorem exists_notify (options : Options) {s : Wakeups} {writer : Writer} {writers : List Writer}
    (h : s.mustNotify = writer :: writers) :
    ∃ t, Step options s t ∧ t.mustNotify = writers ∧ t.worker = s.worker.notify := by
  unfold mustNotify at h
  split at h
  · next other hholder =>
    obtain ⟨rfl, rfl⟩ := List.cons.inj h
    exact ⟨_, .queuedNotify other hholder, rfl, rfl⟩
  · next hnone =>
    refine ⟨_, .inlineNotify writer [] writers h, ?_, rfl⟩
    unfold mustNotify
    split
    · next other hholder => exact absurd hholder (hnone other)
    · rfl

/-- The writer thread parks only while it has nothing to do, and a client that gives it something to
do owes it a notification, which it sends before it releases the lock or afterwards. -/
structure Owed (s : Wakeups) : Prop where
  sent : ∀ writer, s.holder = some (writer, true) → s.worker ≠ .parked false
  owed : s.worker = .parked false → s.queue.writing = false → s.queue.writers ≠ [] →
    s.mustNotify ≠ []

theorem notify_ne_parked (worker : Worker) : worker.notify ≠ .parked false := by
  cases worker <;> simp [Worker.notify]

theorem sent_step {s t : Wakeups} (h : s.Owed) (hst : Step options s t) (writer : Writer)
    (hsent : t.holder = some (writer, true)) : t.worker ≠ .parked false := by
  cases hst with
  | enterInline => exact h.sent writer hsent
  | inlineFinish => exact h.sent writer hsent
  | enterQueued => simp at hsent
  | unlock => simp at hsent
  | queuedNotify => exact notify_ne_parked s.worker
  | inlineNotify => exact notify_ne_parked s.worker
  | park hworker hfree => simp [hfree] at hsent
  | _ => simp [collect]

theorem owed_step {s t : Wakeups} (h : s.Owed) (hst : Step options s t)
    (hparked : t.worker = .parked false) (hwriting : t.queue.writing = false)
    (hwriters : t.queue.writers ≠ []) : t.mustNotify ≠ [] := by
  cases hst with
  | enterInline writer hnew hbatch hfree henqueue =>
    simp [(WriteQueue.enqueue_inline henqueue).2.2] at hwriting
  | enterQueued => simp [mustNotify]
  | inlineFinish => simp [mustNotify]
  | unlock writer hholder => exact absurd hparked (h.sent writer hholder)
  | queuedNotify => exact absurd hparked (notify_ne_parked s.worker)
  | inlineNotify => exact absurd hparked (notify_ne_parked s.worker)
  | park hworker hfree hwakes =>
    -- The predicate is false, so somebody writes or nobody waits.
    simp only at hwriting hwriters
    simp [WriteQueue.wakes, hwriting, hwriters] at hwakes
  | _ => simp [collect] at hparked

theorem owed_of_reachable {s : Wakeups} (h : Reachable (wakeups options) s) : s.Owed := by
  refine h.invariant ?_ fun s t _ howed hst => ⟨sent_step howed hst, owed_step howed hst⟩
  rintro s rfl
  exact ⟨by simp, by simp⟩

end Wakeups

/-- While the writer thread is parked with work to do and has not been notified, some client has yet
to call `notify_one`, and that call reaches the thread. -/
theorem no_lost_wakeup (options : Options) (s : Wakeups) (hs : Reachable (wakeups options) s)
    (hparked : s.worker = .parked false) (hwriting : s.queue.writing = false)
    (hwriters : s.queue.writers ≠ []) :
    ∃ writer t, writer ∈ s.mustNotify ∧ Wakeups.Step options s t ∧
      s.mustNotify = writer :: t.mustNotify ∧ t.worker = .parked true := by
  have howed := (Wakeups.owed_of_reachable hs).owed hparked hwriting hwriters
  obtain ⟨writer, writers, hmust⟩ := List.exists_cons_of_ne_nil howed
  obtain ⟨t, hst, hrest, hworker⟩ := Wakeups.exists_notify options hmust
  refine ⟨writer, t, by simp [hmust], hst, by rw [hmust, hrest], ?_⟩
  rw [hworker, hparked]
  rfl

/-- The thread is woken for a writer that was queued behind an inline group and parks again; the
group ends, and its client has yet to notify. -/
theorem no_lost_wakeup_behind_inline_group :
    ∃ s : Wakeups, Reachable (wakeups {}) s ∧ s.worker = .parked false ∧
      s.queue.writing = false ∧ s.queue.writers.map Writer.id = [1] ∧
      ∃ writer t, writer ∈ s.mustNotify ∧ Wakeups.Step {} s t ∧
        s.mustNotify = writer :: t.mustNotify ∧ t.worker = .parked true := by
  have h : Reachable (wakeups {}) {} := .initial rfl
  have h := h.step (.park rfl rfl rfl)
  have h := h.step (.enterInline ⟨0, .put .new [97] [49]⟩ (by decide) rfl rfl rfl)
  have h := h.step (.enterQueued ⟨1, .put .new [98] [50]⟩ (by decide) rfl rfl rfl)
  have h := h.step (.queuedNotify _ rfl)
  have h := h.step (.unlock _ rfl)
  have h := h.step (.wake rfl)
  have h := h.step (.park rfl rfl rfl)
  have h := h.step (.inlineFinish _ [] [] rfl rfl)
  exact ⟨_, h, rfl, rfl, rfl, no_lost_wakeup {} _ h rfl rfl (List.cons_ne_nil _ _)⟩

end StorageEngine
