import StorageEngine.Lib.Progress
import StorageEngine.Queue.Wakeup

/-! Group commit comes to rest.  When no further writer arrives, every schedule of the clients and
the writer thread is finite, and where it ends, all writers that arrived are in finished groups. -/

namespace StorageEngine

open Transition Relation

/-- How many steps the writer thread may have left until it parks, if nobody notifies it and
nobody waits in the queue. -/
def Worker.rank : Worker → Nat
  | .parked false => 0
  | .checking => 1
  | .parked true => 2
  | .resuming _ => 2
  | .notifying _ => 3
  | .writing _ => 4
  | .gatherParked _ false => 5
  | .gathering _ => 6
  | .gatherParked _ true => 7

/-- Whether the group that the writer thread works on will take in the writers that wait now. -/
def Worker.gathers : Worker → Bool
  | .gathering _ => true
  | .gatherParked _ _ => true
  | _ => false

theorem Worker.rank_notify_le (worker : Worker) : worker.notify.rank ≤ worker.rank + 2 := by
  rcases worker with _ | (_ | _) | _ | ⟨_, _ | _⟩ | _ | _ | _ <;> simp [notify, rank]

theorem Worker.gathers_notify (worker : Worker) : worker.notify.gathers = worker.gathers := by
  cases worker <;> rfl

namespace Wakeups

variable {options : Options}

/-- The writer thread wakes up without a notification. -/
inductive Spurious : Wakeups → Wakeups → Prop
  | parked {s : Wakeups} (h : s.worker = .parked false) :
      Spurious s { s with worker := .checking }
  | gatherParked {s : Wakeups} (targetSize : Nat) (h : s.worker = .gatherParked targetSize false) :
      Spurious s { s with worker := .gathering targetSize }

/-- Every other step that brings no new writer. -/
def Works (options : Options) (s t : Wakeups) : Prop :=
  Step options s t ∧ t.arrivals = s.arrivals ∧ ¬Spurious s t

/-- A notification costs the writer thread up to two steps, and the writers that wait cost it a
group. -/
def rank (s : Wakeups) : Nat :=
  5 * s.inline.length + 3 * s.notifiers.length +
    (match s.holder with
      | some (_, false) => 4
      | some (_, true) => 1
      | none => 0) +
    6 * (!s.queue.writers.isEmpty && !s.worker.gathers).toNat + s.worker.rank

theorem rank_worker_lt {s : Wakeups} {worker worker' : Worker} (hworker : s.worker = worker)
    (hgathers : worker'.gathers = worker.gathers) (hrank : worker'.rank < worker.rank) :
    { s with worker := worker' }.rank < s.rank := by
  subst hworker
  simp only [rank, hgathers]
  omega

theorem rank_collect_lt {s : Wakeups} (h : 4 < s.worker.rank) : s.collect.rank < s.rank := by
  have hrank : s.collect.worker.rank = 4 := rfl
  simp only [rank, hrank]
  simp only [collect, List.isEmpty_nil, Bool.not_true, Bool.false_and, Bool.toNat_false]
  omega

theorem rank_works (s t : Wakeups) (h : Works options s t) : t.rank < s.rank := by
  obtain ⟨hstep, harrivals, hnot⟩ := h
  cases hstep with
  | enterInline => simp at harrivals
  | enterQueued => simp at harrivals
  | queuedNotify writer hholder =>
    have := s.worker.rank_notify_le
    simp only [rank, hholder, Worker.gathers_notify]
    omega
  | unlock writer hholder =>
    simp only [rank, hholder]
    omega
  | inlineFinish writer before after hinline =>
    simp only [rank, hinline, List.length_append, List.length_cons, List.length_nil]
    omega
  | inlineNotify writer before after hnotifiers =>
    have := s.worker.rank_notify_le
    simp only [rank, hnotifiers, Worker.gathers_notify, List.length_append, List.length_cons]
    omega
  | park hworker => exact rank_worker_lt hworker rfl (by decide)
  | wake hworker => exact rank_worker_lt hworker rfl (by decide)
  | spurious hworker => exact absurd (.parked hworker) hnot
  | beginGather hworker hfree hwakes hstays hbegin =>
    have hwriters := List.isEmpty_eq_false_iff.mpr (WriteQueue.writers_of_wakes hwakes hstays)
    simp [rank, hworker, hwriters, Worker.rank, Worker.gathers]
  | beginCollect hworker hfree hwakes hstays hbegin =>
    have hwriters := List.isEmpty_eq_false_iff.mpr (WriteQueue.writers_of_wakes hwakes hstays)
    simp [rank, collect, hworker, hwriters, Worker.rank, Worker.gathers]
  | gatherPark targetSize hworker => exact rank_worker_lt hworker rfl (by simp [Worker.rank])
  | gatherWake targetSize hworker => exact rank_worker_lt hworker rfl (by simp [Worker.rank])
  | gatherSpurious targetSize hworker => exact absurd (.gatherParked targetSize hworker) hnot
  | gatherTimeout targetSize notified hworker =>
    refine rank_collect_lt ?_
    cases notified <;> simp [hworker, Worker.rank]
  | collect targetSize hworker => exact rank_collect_lt (by simp [hworker, Worker.rank])
  | threadFinish group hworker =>
    obtain ⟨armed, hqueue⟩ := s.queue.finish_eq group
    simp [rank, hqueue, hworker, Worker.rank, Worker.gathers]
  | threadNotify group hworker => exact rank_worker_lt hworker rfl (by simp [Worker.rank])
  | threadLoop group hworker => exact rank_worker_lt hworker rfl (by simp [Worker.rank])

theorem rank_spurious (s t : Wakeups) (h : Spurious s t) : t.rank ≤ s.rank + 1 := by
  cases h with
  | parked hworker => simp [rank, hworker, Worker.rank, Worker.gathers]
  | gatherParked targetSize hworker => simp [rank, hworker, Worker.rank, Worker.gathers]

/-! ### Where a run ends -/

/-- Nobody can go on: the writer thread is parked, and no client is inside `enqueueAsyncWriter`. -/
structure AtRest (s : Wakeups) : Prop where
  worker : s.worker = .parked false
  holder : s.holder = none
  inline : s.inline = []
  notifiers : s.notifiers = []

theorem Spurious.worker {s t : Wakeups} (h : Spurious s t) :
    (s.worker = .parked false ∧ t.worker = .checking) ∨
      ∃ targetSize, s.worker = .gatherParked targetSize false ∧
        t.worker = .gathering targetSize := by
  cases h with
  | parked hworker => exact .inl ⟨hworker, rfl⟩
  | gatherParked targetSize hworker => exact .inr ⟨targetSize, hworker, rfl⟩

theorem Spurious.clients {s t : Wakeups} (h : Spurious s t) :
    t.holder = s.holder ∧ t.inline = s.inline ∧ t.notifiers = s.notifiers := by
  cases h <;> exact ⟨rfl, rfl, rfl⟩

section Stuck

variable {s : Wakeups} (h : ∀ t, ¬Works options s t)
include h

theorem holder_of_stuck : s.holder = none := by
  match hholder : s.holder with
  | none => rfl
  | some (writer, false) =>
    refine absurd ⟨.queuedNotify writer hholder, rfl, fun hspurious => ?_⟩ (h _)
    simpa [hholder] using hspurious.clients.1
  | some (writer, true) =>
    refine absurd ⟨.unlock writer hholder, rfl, fun hspurious => ?_⟩ (h _)
    simpa [hholder] using hspurious.clients.1

theorem inline_of_stuck : s.inline = [] := by
  match hinline : s.inline with
  | [] => rfl
  | writer :: after =>
    refine absurd ⟨.inlineFinish writer [] after hinline (holder_of_stuck h), rfl,
      fun hspurious => ?_⟩ (h _)
    simpa [hinline] using congrArg List.length hspurious.clients.2.1

theorem notifiers_of_stuck : s.notifiers = [] := by
  match hnotifiers : s.notifiers with
  | [] => rfl
  | writer :: after =>
    refine absurd ⟨.inlineNotify writer [] after hnotifiers, rfl, fun hspurious => ?_⟩ (h _)
    simpa [hnotifiers] using congrArg List.length hspurious.clients.2.2

end Stuck

/-- Only a thread that is parked and has not been notified has nothing to do. -/
theorem exists_works {s : Wakeups} (hrun : s.queue.stopWriter = false) (hfree : s.holder = none)
    (hbusy : s.worker ≠ .parked false) : ∃ t, Works options s t := by
  have hworks : ∀ {t}, Step options s t → t.arrivals = s.arrivals →
      (∀ targetSize, s.worker = .gatherParked targetSize false →
        t.worker ≠ .gathering targetSize) → ∃ t, Works options s t := by
    intro t hstep harrivals hgather
    refine ⟨t, hstep, harrivals, fun hspurious => ?_⟩
    obtain hparked | ⟨targetSize, hbefore, hafter⟩ := hspurious.worker
    · exact hbusy hparked.1
    · exact hgather targetSize hbefore hafter
  match hworker : s.worker with
  | .parked false => exact absurd hworker hbusy
  | .parked true => exact hworks (.wake hworker) rfl (by simp [hworker])
  | .checking =>
    have hstays : s.queue.exits = false := by simp [WriteQueue.exits, hrun]
    cases hwakes : s.queue.wakes with
    | false => exact hworks (.park hworker hfree hwakes) rfl (by simp [hworker])
    | true =>
      cases hbegin : s.queue.begin.2 with
      | false =>
        exact hworks (.beginCollect hworker hfree hwakes hstays hbegin) rfl (by simp [hworker])
      | true =>
        exact hworks (.beginGather hworker hfree hwakes hstays hbegin) rfl (by simp [hworker])
  | .gathering targetSize =>
    cases hgathered : s.queue.gathered targetSize with
    | false =>
      exact hworks (.gatherPark targetSize hworker hfree hgathered) rfl (by simp [hworker])
    | true => exact hworks (.collect targetSize hworker hfree hgathered) rfl (by simp [hworker])
  | .gatherParked targetSize notified =>
    exact hworks (.gatherTimeout targetSize notified hworker hfree) rfl (by simp [collect])
  | .writing group => exact hworks (.threadFinish group hworker hfree) rfl (by simp [hworker])
  | .notifying group => exact hworks (.threadNotify group hworker) rfl (by simp [hworker])
  | .resuming group => exact hworks (.threadLoop group hworker) rfl (by simp [hworker])

theorem stopWriter_of_reachable {s : Wakeups} (h : Reachable (wakeups options) s) :
    s.queue.stopWriter = false := by
  refine h.invariant (p := fun s => s.queue.stopWriter = false) ?_ fun s t _ hs hst => ?_
  · rintro s rfl
    rfl
  · cases hst with
    | enterInline writer hnew hbatch hfree henqueue =>
      rwa [(WriteQueue.enqueue_inline henqueue).2.2]
    | enterQueued writer hnew hbatch hfree henqueue =>
      obtain ⟨armed, hqueue⟩ := WriteQueue.enqueue_queued henqueue
      rwa [hqueue]
    | beginGather =>
      obtain ⟨armed, hqueue⟩ := s.queue.begin_eq
      rwa [hqueue]
    | beginCollect =>
      obtain ⟨armed, hqueue⟩ := s.queue.begin_eq
      simpa [collect, hqueue] using hs
    | threadFinish group =>
      obtain ⟨armed, hqueue⟩ := s.queue.finish_eq group
      rwa [hqueue]
    | _ => exact hs

theorem atRest_of_stuck {s : Wakeups} (hs : Reachable (wakeups options) s)
    (h : ∀ t, ¬Works options s t) : s.AtRest where
  worker := by
    by_contra hbusy
    obtain ⟨t, hworks⟩ := exists_works (stopWriter_of_reachable hs) (holder_of_stuck h) hbusy
    exact h t hworks
  holder := holder_of_stuck h
  inline := inline_of_stuck h
  notifiers := notifiers_of_stuck h

/-- At rest nobody is left in the queue: the last one to release the lock would owe the thread a
notification. -/
theorem AtRest.queue {s : Wakeups} (h : s.AtRest) (hs : Reachable (wakeups options) s)
    (hwriting : s.queue.writing = false) : s.queue.writers = [] := by
  by_contra hwriters
  refine (owed_of_reachable hs).owed h.worker hwriting hwriters ?_
  simp [mustNotify, h.holder, h.notifiers]

/-- The group commit that the wake-ups refine has finished every writer. -/
theorem AtRest.finished {s : Wakeups} (h : s.AtRest) (hs : Reachable (wakeups options) s)
    {g : GroupCommit} {host : Host} (hg : Reachable (groupCommit host) g) (hrefines : s.Refines g) :
    s.queue.writers = [] ∧ g.finishedWriters = s.arrivals := by
  have hrun : g.queue.stopWriter = false := hrefines.queue ▸ stopWriter_of_reachable hs
  have horder := (GroupCommit.invariant_of_reachable hg hrun).inOrder
  have hthread : g.thread = .waiting := by rw [hrefines.thread, h.worker]; rfl
  have hinline : g.inline = [] := by rw [hrefines.inline, h.inline]; rfl
  have hexclusive := horder.exclusive
  rw [hthread, hinline, hrefines.queue] at hexclusive
  have hwriters := h.queue hs (by simpa [Phase.busy] using hexclusive.symm)
  refine ⟨hwriters, ?_⟩
  have horder := horder.order
  simp only [GroupCommit.inProgress, GroupCommit.calls, hthread, hinline, hrefines.queue, hwriters,
    Phase.calls] at horder
  simpa [hrefines.arrivals] using horder.symm

end Wakeups

open Wakeups in
/-- Without new writers, a run of the queue takes a bounded number of steps, and one more for each
spurious wake-up; and wherever a run cannot go on, the writer thread is parked and every writer
that ever arrived is in a finished group. -/
theorem group_commit_comes_to_rest (host : Host) (options : Options) (s : Wakeups)
    (hs : Reachable (wakeups options) s) :
    (∀ steps spurious t, Run (Works options) Spurious steps spurious s t →
      steps ≤ s.rank + spurious) ∧
    ∀ t, ReflTransGen (Wakeups.Step options) s t → (∀ u, ¬Works options t u) →
      t.AtRest ∧ t.queue.writers = [] ∧
        ∃ g, Reachable (groupCommit host) g ∧ t.Refines g ∧ g.finishedWriters = t.arrivals := by
  constructor
  · intro steps spurious t hrun
    have hle := (hrun.steps_le (p := fun _ => True) (fun _ _ _ _ => trivial)
      (fun s t _ => rank_works s t) (fun s t _ => rank_spurious s t) trivial).2
    omega
  · intro t hst hstuck
    have ht := hs.trans hst
    have hrest := atRest_of_stuck ht hstuck
    obtain ⟨g, hg, hrefines⟩ := exists_refined host ht
    obtain ⟨hwriters, hfinished⟩ := hrest.finished ht hg hrefines
    exact ⟨hrest, hwriters, g, hg, hrefines, hfinished⟩

open Wakeups in
/-- A writer commits inline and another one waits behind it, while the thread is parked. -/
theorem group_commit_comes_to_rest_behind_inline_group :
    ∃ s : Wakeups, Reachable (wakeups {}) s ∧ s.inline.map Writer.id = [0] ∧
      s.queue.writers.map Writer.id = [1] ∧
      (∀ steps spurious t, Run (Works {}) Spurious steps spurious s t → steps ≤ 15 + spurious) ∧
      ∀ t, ReflTransGen (Wakeups.Step {}) s t → (∀ u, ¬Works {} t u) →
        t.AtRest ∧ t.queue.writers = [] ∧
          ∃ g, Reachable (groupCommit .sample) g ∧ t.Refines g ∧
            g.finishedWriters = t.arrivals := by
  have h : Reachable (wakeups {}) {} := .initial rfl
  have h := h.step (.park rfl rfl rfl)
  have h := h.step (.enterInline ⟨0, .put .new [97] [49]⟩ (by decide) rfl rfl rfl)
  have h := h.step (.enterQueued ⟨1, .put .new [98] [50]⟩ (by decide) rfl rfl rfl)
  exact ⟨_, h, rfl, rfl, group_commit_comes_to_rest .sample {} _ h⟩

end StorageEngine
