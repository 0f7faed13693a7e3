import Mathlib.Data.List.Nodup
import StorageEngine.Lib.Transition

/-! A `Task` of `task.h` that coroutines await.  The promise has room for one continuation, which
`Task::Awaiter::await_suspend` stores without a lock, before it starts the task if nobody has.
Whoever completes the task resumes the continuation that is there at that time. -/

namespace StorageEngine

open Transition

/-- What a coroutine in `co_await task` does next: call `await_ready`, store itself as the
continuation, look at `started_`, or nothing, until it is resumed. -/
inductive AwaiterPhase where
  | asking
  | storing
  | starting
  | suspended
  | resumed
  deriving DecidableEq

/-- What a thread in `Task::run` does next. -/
inductive RunnerPhase where
  | starting
  | waiting
  | returned
  deriving DecidableEq

/-- Where the coroutine of the task is: not started, in its body, or in `FinalAwaiter`. -/
inductive BodyPhase where
  | initial
  | running
  | notifying
  | reading
  | done
  deriving DecidableEq

structure AwaitedTask where
  started : Bool := false
  completed : Bool := false
  continuation : Option Nat := none
  body : BodyPhase := .initial
  runner : RunnerPhase
  awaiters : Nat → AwaiterPhase := fun _ => .asking
  resumed : List Nat := []

namespace AwaitedTask

def move (s : AwaitedTask) (i : Nat) (phase : AwaiterPhase) : AwaitedTask :=
  { s with awaiters := Function.update s.awaiters i phase }

@[simp] theorem move_self (s : AwaitedTask) (i : Nat) (phase : AwaiterPhase) :
    (s.move i phase).awaiters i = phase := Function.update_self _ _ _

def resume (s : AwaitedTask) (i : Nat) : AwaitedTask :=
  { s.move i .resumed with resumed := s.resumed ++ [i] }

/-- The end of `FinalAwaiter::await_suspend`. -/
def transfer (s : AwaitedTask) : AwaitedTask :=
  match s.continuation with
  | none => { s with body := .done }
  | some i => { s.resume i with body := .done }

theorem transfer_none {s : AwaitedTask} (h : s.continuation = none) :
    s.transfer = { s with body := .done } := by
  simp [transfer, h]

theorem transfer_some {s : AwaitedTask} {i : Nat} (h : s.continuation = some i) :
    s.transfer = { s.resume i with body := .done } := by
  simp [transfer, h]

/-- There are `n` coroutines that await the task. -/
inductive Step (n : Nat) : AwaitedTask → AwaitedTask → Prop
  | ready {s : AwaitedTask} (i : Nat) (hi : i < n) (h : s.awaiters i = .asking)
      (hcompleted : s.completed = true) : Step n s (s.resume i)
  | notReady {s : AwaitedTask} (i : Nat) (hi : i < n) (h : s.awaiters i = .asking)
      (hcompleted : s.completed = false) : Step n s (s.move i .storing)
  | store {s : AwaitedTask} (i : Nat) (hi : i < n) (h : s.awaiters i = .storing) :
      Step n s { s.move i .starting with continuation := some i }
  | start {s : AwaitedTask} (i : Nat) (hi : i < n) (h : s.awaiters i = .starting)
      (hstarted : s.started = false) :
      Step n s { s.move i .suspended with started := true, body := .running }
  | suspend {s : AwaitedTask} (i : Nat) (hi : i < n) (h : s.awaiters i = .starting)
      (hstarted : s.started = true) : Step n s (s.move i .suspended)
  | run {s : AwaitedTask} (h : s.runner = .starting) (hstarted : s.started = false) :
      Step n s { s with started := true, body := .running, runner := .waiting }
  | runStarted {s : AwaitedTask} (h : s.runner = .starting) (hstarted : s.started = true) :
      Step n s { s with runner := .waiting }
  | wait {s : AwaitedTask} (h : s.runner = .waiting) (hcompleted : s.completed = true) :
      Step n s { s with runner := .returned }
  | complete {s : AwaitedTask} (h : s.body = .running) :
      Step n s { s with completed := true, body := .notifying }
  | notifyAll {s : AwaitedTask} (h : s.body = .notifying) : Step n s { s with body := .reading }
  | readContinuation {s : AwaitedTask} (h : s.body = .reading) : Step n s s.transfer

/-- Each coroutine is resumed at most once and not before the task is complete, and none is left
suspended after that. -/
structure Answers (s : AwaitedTask) : Prop where
  once : s.resumed.Nodup
  completed : ∀ i, s.awaiters i = .resumed → s.completed = true
  kept : s.body = .done → ∀ i, s.awaiters i ≠ .suspended

end AwaitedTask

/-- A task that `n` coroutines await and that, if `runs`, a thread runs as well. -/
def awaiting (runs : Bool) (n : Nat) : System AwaitedTask where
  initial s := s = { runner := if runs then .starting else .returned }
  step := AwaitedTask.Step n

namespace AwaitedTask

variable {n : Nat} {s t : AwaitedTask}

/-! ### One coroutine -/

/-- Nobody awaits the task. -/
structure Unawaited (s : AwaitedTask) : Prop where
  continuation : s.continuation = none
  resumed : s.resumed = []
  awaiters : ∀ i, s.awaiters i = .asking

theorem unawaited_of_reachable {runs : Bool} (h : Reachable (awaiting runs 0) s) : s.Unawaited := by
  refine h.invariant ?_ fun s t _ hs hst => ?_
  · rintro _ rfl
    exact ⟨rfl, rfl, fun _ => rfl⟩
  · cases hst with
    | readContinuation =>
      rw [transfer_none hs.continuation]
      exact ⟨hs.continuation, hs.resumed, hs.awaiters⟩
    | run | runStarted | wait | complete | notifyAll =>
      exact ⟨hs.continuation, hs.resumed, hs.awaiters⟩
    | _ => omega

/-- What holds of the task in each phase of the only coroutine that awaits it, which starts it. -/
def AwaitedIn (s : AwaitedTask) : AwaiterPhase → Prop
  | .asking | .storing =>
    s.body = .initial ∧ s.started = false ∧ s.completed = false ∧ s.resumed = []
  | .starting =>
    s.body = .initial ∧ s.started = false ∧ s.completed = false ∧ s.resumed = [] ∧
      s.continuation = some 0
  | .suspended =>
    (s.body = .running ∨ s.completed = true ∧ (s.body = .notifying ∨ s.body = .reading)) ∧
      s.started = true ∧ s.resumed = [] ∧ s.continuation = some 0
  | .resumed => s.body = .done ∧ s.started = true ∧ s.completed = true ∧ s.resumed = [0]

structure AwaitedOnce (s : AwaitedTask) : Prop where
  runner : s.runner = .returned
  others : ∀ i, i ≠ 0 → s.awaiters i = .asking
  phase : s.AwaitedIn (s.awaiters 0)

theorem others_move (h : ∀ i, i ≠ 0 → s.awaiters i = .asking) (phase : AwaiterPhase) (i : Nat)
    (hi : i ≠ 0) : (s.move 0 phase).awaiters i = .asking :=
  (Function.update_of_ne hi _ _).trans (h i hi)

theorem awaitedOnce_step (h : s.AwaitedOnce) (hst : Step 1 s t) : t.AwaitedOnce := by
  obtain ⟨hrunner, hothers, hphase⟩ := h
  cases hst with
  | ready i hi hasking hcompleted =>
    obtain rfl : i = 0 := by omega
    simp [hasking, AwaitedIn, hcompleted] at hphase
  | notReady i hi hasking hcompleted =>
    obtain rfl : i = 0 := by omega
    rw [hasking] at hphase
    refine ⟨hrunner, others_move hothers _, ?_⟩
    rw [move_self]
    exact hphase
  | store i hi hstoring =>
    obtain rfl : i = 0 := by omega
    rw [hstoring] at hphase
    obtain ⟨hbody, hstarted, hcompleted, hresumed⟩ := hphase
    refine ⟨hrunner, others_move hothers _, ?_⟩
    rw [move_self]
    exact ⟨hbody, hstarted, hcompleted, hresumed, rfl⟩
  | start i hi hstarting hstarted =>
    obtain rfl : i = 0 := by omega
    rw [hstarting] at hphase
    obtain ⟨-, -, -, hresumed, hcontinuation⟩ := hphase
    refine ⟨hrunner, others_move hothers _, ?_⟩
    rw [move_self]
    exact ⟨.inl rfl, rfl, hresumed, hcontinuation⟩
  | suspend i hi hstarting hstarted =>
    obtain rfl : i = 0 := by omega
    simp [hstarting, AwaitedIn, hstarted] at hphase
  | run hstarting | runStarted hstarting | wait hstarting => simp [hrunner] at hstarting
  | complete hbody =>
    refine ⟨hrunner, hothers, ?_⟩
    cases hawaiter : s.awaiters 0 <;> simp_all [AwaitedIn]
  | notifyAll hbody =>
    refine ⟨hrunner, hothers, ?_⟩
    cases hawaiter : s.awaiters 0 <;> simp_all [AwaitedIn]
  | readContinuation hbody =>
    cases hawaiter : s.awaiters 0 with
    | suspended =>
      rw [hawaiter] at hphase
      obtain ⟨hreached, hstarted, hresumed, hcontinuation⟩ := hphase
      have hcompleted : s.completed = true := by simpa [hbody] using hreached
      rw [transfer_some hcontinuation]
      refine ⟨hrunner, others_move hothers _, ?_⟩
      rw [resume, move_self]
      exact ⟨rfl, hstarted, hcompleted, by simp [hresumed]⟩
    | _ => simp [hawaiter, AwaitedIn, hbody] at hphase

theorem awaitedOnce_of_reachable (h : Reachable (awaiting false 1) s) : s.AwaitedOnce := by
  refine h.invariant ?_ fun s t _ hs hst => awaitedOnce_step hs hst
  rintro _ rfl
  exact ⟨rfl, fun _ _ => rfl, rfl, rfl, rfl, rfl⟩

theorem AwaitedOnce.answers (h : s.AwaitedOnce) : s.Answers := by
  obtain ⟨-, hothers, hphase⟩ := h
  constructor
  · cases hawaiter : s.awaiters 0 <;> simp_all [AwaitedIn]
  · intro i hresumed
    by_cases hi : i = 0
    · rw [hi] at hresumed
      rw [hresumed] at hphase
      exact hphase.2.2.1
    · simp [hothers i hi] at hresumed
  · intro hdone i hsuspended
    by_cases hi : i = 0
    · rw [hi] at hsuspended
      rw [hsuspended] at hphase
      simp [AwaitedIn, hdone] at hphase
    · simp [hothers i hi] at hsuspended

/-! ### Coroutines that are lost -/

/-- The second coroutine takes the place of the first one. -/
theorem exists_lost_of_two (hn : 2 ≤ n) :
    ∃ s, Reachable (awaiting false n) s ∧ s.body = .done ∧ s.awaiters 0 = .suspended := by
  have h : Reachable (awaiting false n) _ := .initial rfl
  have h := h.step (.notReady 0 (by omega) rfl rfl)
  have h := h.step (.store 0 (by omega) rfl)
  have h := h.step (.start 0 (by omega) rfl rfl)
  have h := h.step (.notReady 1 (by omega) rfl rfl)
  have h := h.step (.store 1 (by omega) rfl)
  have h := h.step (.suspend 1 (by omega) rfl rfl)
  have h := h.step (.complete rfl)
  have h := h.step (.notifyAll rfl)
  have h := h.step (.readContinuation rfl)
  exact ⟨_, h, rfl, rfl⟩

/-- The task that a thread runs is complete before the coroutine is stored. -/
theorem exists_lost_of_run (hn : 1 ≤ n) :
    ∃ s, Reachable (awaiting true n) s ∧ s.body = .done ∧ s.awaiters 0 = .suspended := by
  have h : Reachable (awaiting true n) _ := .initial rfl
  have h := h.step (.notReady 0 (by omega) rfl rfl)
  have h := h.step (.run rfl rfl)
  have h := h.step (.complete rfl)
  have h := h.step (.notifyAll rfl)
  have h := h.step (.readContinuation rfl)
  have h := h.step (.store 0 (by omega) rfl)
  have h := h.step (.suspend 0 (by omega) rfl rfl)
  exact ⟨_, h, rfl, rfl⟩

end AwaitedTask

/-- Every coroutine that awaits a task is resumed, once and with the result, in every interleaving
if and only if there is at most one of them and it is the only one to use the task. -/
theorem task_answers_awaiters_iff (runs : Bool) (n : Nat) :
    (∀ s, Reachable (awaiting runs n) s → s.Answers) ↔ n = 0 ∨ (n = 1 ∧ runs = false) := by
  constructor
  · intro hanswers
    by_contra hmany
    obtain ⟨s, hs, hdone, hlost⟩ : ∃ s, Reachable (awaiting runs n) s ∧ s.body = .done ∧
        s.awaiters 0 = .suspended := by
      cases runs with
      | true => exact AwaitedTask.exists_lost_of_run (by omega)
      | false => exact AwaitedTask.exists_lost_of_two (by simp at hmany; omega)
    exact (hanswers s hs).kept hdone 0 hlost
  · rintro (rfl | ⟨rfl, rfl⟩) s hs
    · obtain ⟨-, hresumed, hawaiters⟩ := AwaitedTask.unawaited_of_reachable hs
      exact ⟨by simp [hresumed], by simp [hawaiters], by simp [hawaiters]⟩
    · exact (AwaitedTask.awaitedOnce_of_reachable hs).answers

end StorageEngine
