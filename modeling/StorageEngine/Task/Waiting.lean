import StorageEngine.Lib.Progress
import StorageEngine.Task

/-! `Task::run` returns.  The thread that waits is never left parked: whoever completes the
coroutine notifies it after `completed_` is set. -/

namespace StorageEngine

open Relation Transition

def CompleterPhase.rank : CompleterPhase → Nat
  | .locking => 5
  | .setting => 4
  | .unlocking => 3
  | .notifying => 2
  | .reading => 1
  | .done => 0

/-- A parked thread counts as close to its end until it is notified. -/
def WaiterPhase.rank : WaiterPhase → Nat
  | .starting => 7
  | .parked true => 6
  | .locking => 5
  | .checking => 4
  | .parked false => 3
  | .unlocking => 3
  | .taking => 2
  | .destroying => 1
  | .gone => 0

theorem WaiterPhase.rank_notify_le (waiter : WaiterPhase) :
    waiter.notify.rank ≤ waiter.rank + 3 := by
  rcases waiter with _ | _ | _ | (_ | _) | _ | _ | _ | _ <;> decide

namespace TaskState

def rank (s : TaskState) : Nat := 4 * s.completer.rank + s.waiter.rank

/-- A step that is not the waking up of a thread that nobody has notified. -/
inductive Works : TaskState → TaskState → Prop
  | completer {s t : TaskState} (h : CompleterStep s t) : Works s t
  | waiter {s t : TaskState} (h : WaiterStep s t) (hwoken : s.waiter ≠ .parked false) : Works s t

def Spurious (s t : TaskState) : Prop :=
  s.waiter = .parked false ∧ t = { s with waiter := .locking }

theorem rank_works (s t : TaskState) (h : Works s t) : t.rank < s.rank := by
  unfold rank
  cases h with
  | completer hst =>
    cases hst with
    | notifyAll hphase =>
      have := s.waiter.rank_notify_le
      simp only [hphase, CompleterPhase.rank]
      omega
    | lock hphase | set hphase | unlock hphase | readContinuation hphase =>
      simp [hphase, CompleterPhase.rank]
  | waiter hst hwoken =>
    cases hst with
    | wake notified hphase =>
      cases notified with
      | true => simp [hphase, WaiterPhase.rank]
      | false => contradiction
    | start hphase | lock hphase | park hphase | leave hphase | unlock hphase | takeResult hphase
    | destroy hphase => simp [hphase, WaiterPhase.rank]

theorem rank_spurious (s t : TaskState) (h : Spurious s t) : t.rank ≤ s.rank + 2 := by
  obtain ⟨hphase, rfl⟩ := h
  simp [rank, hphase, WaiterPhase.rank]

/-- A parked thread that is not notified has its notification before it. -/
def Owed (s : TaskState) : Prop :=
  s.waiter = .parked false → s.completer ≠ .reading ∧ s.completer ≠ .done

theorem owed_step {s t : TaskState} (hinv : s.Invariant) (h : s.Owed) (hst : Step s t) :
    t.Owed := by
  intro hparked
  cases hst with
  | completer hst =>
    cases hst with
    | notifyAll =>
      cases hwaiter : s.waiter <;> simp_all [WaiterPhase.notify]
    | readContinuation hphase => exact absurd hphase (h hparked).1
    | _ => simp
  | waiter hst =>
    cases hst with
    | park hphase hcompleted =>
      have hbefore : ¬(s.completer ≠ .locking ∧ s.completer ≠ .setting) := by
        simp [← hinv.completed, hcompleted]
      constructor <;> intro hcompleter <;> exact hbefore (by simp_all)
    | _ => simp at hparked

theorem owed_of_reachable {s : TaskState} (h : Reachable task s) : s.Owed := by
  refine h.invariant ?_ fun s t hs howed hst => owed_step (invariant_of_reachable hs) howed hst
  rintro _ ⟨synchronous, rfl⟩ hparked
  simp at hparked

/-- A waiting thread that holds the mutex gives it back. -/
theorem exists_works_of_holdsMutex {s : TaskState} (h : s.waiter.holdsMutex = true) :
    ∃ t, Works s t := by
  cases hphase : s.waiter with
  | checking =>
    cases hcompleted : s.completed with
    | false => exact ⟨_, .waiter (.park hphase hcompleted) (by simp [hphase])⟩
    | true => exact ⟨_, .waiter (.leave hphase hcompleted) (by simp [hphase])⟩
  | unlocking => exact ⟨_, .waiter (.unlock hphase) (by simp [hphase])⟩
  | _ => simp [hphase, WaiterPhase.holdsMutex] at h

theorem exists_works_of_completer {s : TaskState} (h : s.completer ≠ .done) : ∃ t, Works s t := by
  cases hphase : s.completer with
  | locking =>
    cases hfree : s.waiter.holdsMutex with
    | false => exact ⟨_, .completer (.lock hphase hfree)⟩
    | true => exact exists_works_of_holdsMutex hfree
  | setting => exact ⟨_, .completer (.set hphase)⟩
  | unlocking => exact ⟨_, .completer (.unlock hphase)⟩
  | notifying => exact ⟨_, .completer (.notifyAll hphase)⟩
  | reading => exact ⟨_, .completer (.readContinuation hphase)⟩
  | done => contradiction

theorem exists_works_of_waiter {s : TaskState} (howed : s.Owed) (hdone : s.completer = .done)
    (h : s.waiter ≠ .gone) : ∃ t, Works s t := by
  cases hphase : s.waiter with
  | starting => exact ⟨_, .waiter (.start hphase fun _ => hdone) (by simp [hphase])⟩
  | locking =>
    exact ⟨_, .waiter (.lock hphase (by simp [hdone, CompleterPhase.holdsMutex]))
      (by simp [hphase])⟩
  | checking => exact exists_works_of_holdsMutex (by simp [hphase, WaiterPhase.holdsMutex])
  | parked notified =>
    cases notified with
    | true => exact ⟨_, .waiter (.wake true hphase) (by simp [hphase])⟩
    | false => exact absurd hdone (howed hphase).2
  | unlocking => exact exists_works_of_holdsMutex (by simp [hphase, WaiterPhase.holdsMutex])
  | taking => exact ⟨_, .waiter (.takeResult hphase) (by simp [hphase])⟩
  | destroying => exact ⟨_, .waiter (.destroy hphase) (by simp [hphase])⟩
  | gone => contradiction

end TaskState

open TaskState in
/-- `Task::run` returns.  From every state the two threads have a bounded number of steps left, not
counting wake-ups for no reason, and they stop only when the result is taken and the frame gone. -/
theorem task_run_returns (s : TaskState) (h : Reachable task s) :
    (∀ steps spurious t, Run Works Spurious steps spurious s t → steps ≤ s.rank + 2 * spurious) ∧
    ∀ t, ReflTransGen Step s t → (∀ u, ¬Works t u) → t.completer = .done ∧ t.waiter = .gone := by
  constructor
  · intro steps spurious t hrun
    have hle := (hrun.steps_le (p := fun _ => True) (fun _ _ _ _ => trivial)
      (fun s t _ => rank_works s t) (fun s t _ => rank_spurious s t) trivial).2
    omega
  · intro t hst hstuck
    have howed := owed_of_reachable (h.trans hst)
    have hdone : t.completer = .done := by
      by_contra hcompleter
      obtain ⟨u, hu⟩ := exists_works_of_completer hcompleter
      exact hstuck u hu
    refine ⟨hdone, ?_⟩
    by_contra hwaiter
    obtain ⟨u, hu⟩ := exists_works_of_waiter howed hdone hwaiter
    exact hstuck u hu

open TaskState in
/-- The waiting thread has parked before the coroutine is complete. -/
theorem task_run_returns_after_park :
    let parked : TaskState := { synchronous := false, waiter := .parked false }
    Reachable task parked ∧
    (∀ steps spurious t, Run Works Spurious steps spurious parked t → steps ≤ 23 + 2 * spurious) ∧
    ∀ t, ReflTransGen Step parked t → (∀ u, ¬Works t u) →
      t.completer = .done ∧ t.waiter = .gone := by
  have hstart : Reachable task { synchronous := false } := .initial ⟨false, rfl⟩
  have hparked := ((hstart.step (.waiter (.start rfl (by decide)))).step
    (.waiter (.lock rfl rfl))).step (.waiter (.park rfl rfl))
  exact ⟨hparked, task_run_returns _ hparked⟩

end StorageEngine
