import StorageEngine.Lib.Transition

/-! A `Task` of `task.h` that one thread runs and waits for.  Whoever finishes the coroutine goes
through `FinalAwaiter::await_suspend`, on the promise inside the coroutine frame; the thread that
waits destroys the frame as soon as it has seen that the coroutine is complete. -/

namespace StorageEngine

open Relation Transition

/-- What the completing thread does next in `FinalAwaiter::await_suspend`. -/
inductive CompleterPhase where
  | locking
  | setting
  | unlocking
  | notifying
  | reading
  | done
  deriving DecidableEq

/-- What the waiting thread does next in `Task::run` and, after it, in `~Task`. -/
inductive WaiterPhase where
  | starting
  | locking
  | checking
  | parked (notified : Bool)
  | unlocking
  | taking
  | destroying
  | gone
  deriving DecidableEq

def CompleterPhase.holdsMutex : CompleterPhase → Bool
  | .setting | .unlocking => true
  | _ => false

def WaiterPhase.holdsMutex : WaiterPhase → Bool
  | .checking | .unlocking => true
  | _ => false

def WaiterPhase.notify : WaiterPhase → WaiterPhase
  | .parked _ => .parked true
  | waiter => waiter

/-- A task is `synchronous` when its coroutine ends inside `start`, on the thread that waits. -/
structure TaskState where
  synchronous : Bool
  completed : Bool := false
  completer : CompleterPhase := .locking
  waiter : WaiterPhase := .starting
  deriving DecidableEq

namespace TaskState

/-- The steps of the completing thread.  Each of them is on the promise. -/
inductive CompleterStep : TaskState → TaskState → Prop
  | lock {s : TaskState} (h : s.completer = .locking) (hfree : s.waiter.holdsMutex = false) :
      CompleterStep s { s with completer := .setting }
  | set {s : TaskState} (h : s.completer = .setting) :
      CompleterStep s { s with completed := true, completer := .unlocking }
  | unlock {s : TaskState} (h : s.completer = .unlocking) :
      CompleterStep s { s with completer := .notifying }
  | notifyAll {s : TaskState} (h : s.completer = .notifying) :
      CompleterStep s { s with completer := .reading, waiter := s.waiter.notify }
  | readContinuation {s : TaskState} (h : s.completer = .reading) :
      CompleterStep s { s with completer := .done }

/-- The steps of the waiting thread.  A parked thread may wake up for no reason. -/
inductive WaiterStep : TaskState → TaskState → Prop
  | start {s : TaskState} (h : s.waiter = .starting)
      (hend : s.synchronous = true → s.completer = .done) :
      WaiterStep s { s with waiter := .locking }
  | lock {s : TaskState} (h : s.waiter = .locking) (hfree : s.completer.holdsMutex = false) :
      WaiterStep s { s with waiter := .checking }
  | park {s : TaskState} (h : s.waiter = .checking) (hcompleted : s.completed = false) :
      WaiterStep s { s with waiter := .parked false }
  | wake {s : TaskState} (notified : Bool) (h : s.waiter = .parked notified) :
      WaiterStep s { s with waiter := .locking }
  | leave {s : TaskState} (h : s.waiter = .checking) (hcompleted : s.completed = true) :
      WaiterStep s { s with waiter := .unlocking }
  | unlock {s : TaskState} (h : s.waiter = .unlocking) : WaiterStep s { s with waiter := .taking }
  | takeResult {s : TaskState} (h : s.waiter = .taking) :
      WaiterStep s { s with waiter := .destroying }
  | destroy {s : TaskState} (h : s.waiter = .destroying) : WaiterStep s { s with waiter := .gone }

inductive Step : TaskState → TaskState → Prop
  | completer {s t : TaskState} (h : CompleterStep s t) : Step s t
  | waiter {s t : TaskState} (h : WaiterStep s t) : Step s t

/-- In no run from here does the completing thread use the promise after the frame is gone. -/
def FrameOutlives (s : TaskState) : Prop :=
  ∀ t, ReflTransGen Step s t → ∀ u, CompleterStep t u → t.waiter ≠ .gone

end TaskState

def task : System TaskState where
  initial s := ∃ synchronous, s = { synchronous }
  step := TaskState.Step

namespace TaskState

structure Invariant (s : TaskState) : Prop where
  completed : s.completed = true ↔ s.completer ≠ .locking ∧ s.completer ≠ .setting
  leaving : s.waiter = .unlocking → s.completed = true
  exclusive : s.completer.holdsMutex = true → s.waiter.holdsMutex = false
  synchronous : s.synchronous = true → s.waiter ≠ .starting → s.completer = .done

theorem invariant_completerStep {s t : TaskState} (h : s.Invariant) (hst : CompleterStep s t) :
    t.Invariant := by
  obtain ⟨hcompleted, hleaving, hexclusive, hsync⟩ := h
  cases hst with
  | lock hphase hfree => constructor <;> simp_all
  | set hphase => constructor <;> simp_all [CompleterPhase.holdsMutex]
  | unlock hphase => constructor <;> simp_all [CompleterPhase.holdsMutex]
  | notifyAll hphase =>
    cases hwaiter : s.waiter <;> constructor <;>
      simp_all [CompleterPhase.holdsMutex, WaiterPhase.notify]
  | readContinuation hphase => constructor <;> simp_all [CompleterPhase.holdsMutex]

theorem invariant_waiterStep {s t : TaskState} (h : s.Invariant) (hst : WaiterStep s t) :
    t.Invariant := by
  obtain ⟨hcompleted, hleaving, hexclusive, hsync⟩ := h
  cases hst with
  | start hphase hend =>
    exact ⟨hcompleted, by simp, by simp [WaiterPhase.holdsMutex], fun hs _ => hend hs⟩
  | lock hphase hfree =>
    exact ⟨hcompleted, by simp, by simp [hfree], fun hs _ => hsync hs (by simp [hphase])⟩
  | leave hphase hdone =>
    exact ⟨hcompleted, fun _ => hdone, by simp_all [WaiterPhase.holdsMutex],
      fun hs _ => hsync hs (by simp [hphase])⟩
  | park hphase _ | wake _ hphase | unlock hphase | takeResult hphase | destroy hphase =>
    exact ⟨hcompleted, by simp, by simp [WaiterPhase.holdsMutex],
      fun hs _ => hsync hs (by simp [hphase])⟩

theorem invariant_of_reachable {s : TaskState} (h : Reachable task s) : s.Invariant := by
  refine h.invariant ?_ fun s t _ hs hst => ?_
  · rintro _ ⟨synchronous, rfl⟩
    constructor <;> simp [CompleterPhase.holdsMutex]
  · cases hst with
    | completer hst => exact invariant_completerStep hs hst
    | waiter hst => exact invariant_waiterStep hs hst

/-! ### When the frame outlives its completion -/

/-- A completing thread that is done takes no further step. -/
theorem completer_done {s t : TaskState} (hst : ReflTransGen Step s t)
    (h : s.completer = .done) : t.completer = .done := by
  induction hst with
  | refl => exact h
  | tail _ hst ih =>
    cases hst with
    | completer hst => cases hst <;> simp_all
    | waiter hst => cases hst <;> exact ih

theorem synchronous_eq {s t : TaskState} (hst : ReflTransGen Step s t) :
    t.synchronous = s.synchronous := by
  induction hst with
  | refl => rfl
  | tail _ hst ih =>
    cases hst with
    | completer hst => cases hst <;> exact ih
    | waiter hst => cases hst <;> exact ih

theorem not_completerStep_of_done {s t : TaskState} (h : s.completer = .done) :
    ¬CompleterStep s t := by
  intro hst
  cases hst <;> simp_all

/-- Once the task is complete and the mutex is free, the waiting thread gets as far as destroying
the frame without any step of the completing thread. -/
theorem exists_destroyed {s : TaskState} (hasync : s.synchronous = false)
    (hcompleted : s.completed = true) (hfree : s.completer.holdsMutex = false) :
    ReflTransGen Step s { s with waiter := .gone } := by
  have hdestroying : ReflTransGen Step { s with waiter := .destroying } _ :=
    .single (.waiter (.destroy rfl))
  have htaking : ReflTransGen Step { s with waiter := .taking } _ :=
    hdestroying.head (.waiter (.takeResult rfl))
  have hunlocking : ReflTransGen Step { s with waiter := .unlocking } _ :=
    htaking.head (.waiter (.unlock rfl))
  have hchecking : ReflTransGen Step { s with waiter := .checking } _ :=
    hunlocking.head (.waiter (.leave rfl hcompleted))
  have hlocking : ReflTransGen Step { s with waiter := .locking } _ :=
    hchecking.head (.waiter (.lock rfl hfree))
  obtain ⟨synchronous, completed, completer, waiter⟩ := s
  cases waiter with
  | starting => exact hlocking.head (.waiter (.start rfl (by simp_all)))
  | locking => exact hlocking
  | checking => exact hchecking
  | parked notified => exact hlocking.head (.waiter (.wake notified rfl))
  | unlocking => exact hunlocking
  | taking => exact htaking
  | destroying => exact hdestroying
  | gone => exact .refl

/-- A completing thread that has yet to notify can be brought to the point just before. -/
theorem exists_notifying {s : TaskState} (h : s.Invariant) (hdone : s.completer ≠ .done)
    (hreading : s.completer ≠ .reading) :
    ∃ t, ReflTransGen Step s t ∧ t.completer = .notifying ∧ t.completed = true := by
  have hunlock : ∀ s : TaskState, s.completed = true → s.completer = .unlocking →
      ∃ t, ReflTransGen Step s t ∧ t.completer = .notifying ∧ t.completed = true :=
    fun s hcompleted hphase => ⟨_, .single (.completer (.unlock hphase)), rfl, hcompleted⟩
  have hset : ∀ s : TaskState, s.completer = .setting →
      ∃ t, ReflTransGen Step s t ∧ t.completer = .notifying ∧ t.completed = true := by
    intro s hphase
    obtain ⟨t, hst, ht⟩ := hunlock { s with completed := true, completer := .unlocking } rfl rfl
    exact ⟨t, hst.head (.completer (.set hphase)), ht⟩
  have hlock : ∀ s : TaskState, s.completer = .locking → s.waiter.holdsMutex = false →
      ∃ t, ReflTransGen Step s t ∧ t.completer = .notifying ∧ t.completed = true := by
    intro s hphase hfree
    obtain ⟨t, hst, ht⟩ := hset { s with completer := .setting } rfl
    exact ⟨t, hst.head (.completer (.lock hphase hfree)), ht⟩
  have hcompleted := h.completed
  cases hphase : s.completer with
  | locking =>
    -- A waiting thread that holds the mutex finds the task incomplete and parks.
    cases hfree : s.waiter.holdsMutex with
    | false => exact hlock s hphase hfree
    | true =>
      have hnot : s.completed = false := by simpa [hphase] using hcompleted
      have hwaiter : s.waiter = .checking := by
        have hleaving := h.leaving
        cases hw : s.waiter <;> simp_all [WaiterPhase.holdsMutex]
      obtain ⟨t, hst, ht⟩ := hlock { s with waiter := .parked false } hphase rfl
      exact ⟨t, hst.head (.waiter (.park hwaiter hnot)), ht⟩
  | setting => exact hset s hphase
  | unlocking => exact hunlock s (hcompleted.mpr (by simp [hphase])) hphase
  | notifying => exact ⟨s, .refl, hphase, hcompleted.mpr (by simp [hphase])⟩
  | reading => contradiction
  | done => contradiction

/-- The waiting thread can always destroy the frame under the completing one. -/
theorem not_frameOutlives {s : TaskState} (h : s.Invariant) (hasync : s.synchronous = false)
    (hdone : s.completer ≠ .done) : ¬s.FrameOutlives := by
  intro houtlives
  by_cases hreading : s.completer = .reading
  · have hcompleted : s.completed = true := h.completed.mpr (by simp [hreading])
    have hgone := exists_destroyed hasync hcompleted (by simp [hreading, CompleterPhase.holdsMutex])
    exact houtlives _ hgone _ (.readContinuation hreading) rfl
  · obtain ⟨t, hst, hnotifying, hcompleted⟩ := exists_notifying h hdone hreading
    have hasync' : t.synchronous = false := (synchronous_eq hst).trans hasync
    have hgone :=
      exists_destroyed hasync' hcompleted (by simp [hnotifying, CompleterPhase.holdsMutex])
    exact houtlives _ (hst.trans hgone) _ (.notifyAll hnotifying) rfl

end TaskState

/-- The frame outlives its completion in every interleaving if and only if the coroutine ends on
the waiting thread before that thread waits, or the completing thread is already through. -/
theorem task_frame_outlives_iff (s : TaskState) (h : Reachable task s) :
    s.FrameOutlives ↔ s.synchronous = true ∨ s.completer = .done := by
  have hinv := TaskState.invariant_of_reachable h
  constructor
  · intro houtlives
    by_contra hnot
    rw [not_or, Bool.not_eq_true] at hnot
    exact TaskState.not_frameOutlives hinv hnot.1 hnot.2 houtlives
  · rintro (hsync | hdone) t hst u htu hgone
    · have hinv' := TaskState.invariant_of_reachable (h.trans hst)
      have hdone := hinv'.synchronous ((TaskState.synchronous_eq hst).trans hsync) (by simp [hgone])
      exact TaskState.not_completerStep_of_done hdone htu
    · exact TaskState.not_completerStep_of_done (TaskState.completer_done hst hdone) htu

theorem task_frame_outlives_synchronous :
    Reachable task { synchronous := true } ∧ TaskState.FrameOutlives { synchronous := true } :=
  ⟨.initial ⟨true, rfl⟩,
    (task_frame_outlives_iff { synchronous := true } (.initial ⟨true, rfl⟩)).mpr (.inl rfl)⟩

/-- The waiting thread takes the mutex between the completing thread's `unlock` and `notify_all`,
sees `completed_` and destroys the frame, and then comes the `notify_all`. -/
theorem task_frame_destroyed_before_notify :
    ∃ s t : TaskState, Reachable task s ∧ s.waiter = .gone ∧ TaskState.CompleterStep s t ∧
      s.completer = .notifying := by
  have hstart : Reachable task { synchronous := false } := .initial ⟨false, rfl⟩
  have hcompleter := ((hstart.step (.completer (.lock rfl rfl))).step
    (.completer (.set rfl))).step (.completer (.unlock rfl))
  have hwaiter := ((hcompleter.step (.waiter (.start rfl (by decide)))).step
    (.waiter (.lock rfl rfl))).step (.waiter (.leave rfl rfl))
  have hgone := ((hwaiter.step (.waiter (.unlock rfl))).step
    (.waiter (.takeResult rfl))).step (.waiter (.destroy rfl))
  exact ⟨_, _, hgone, rfl, .notifyAll rfl, rfl⟩

end StorageEngine
