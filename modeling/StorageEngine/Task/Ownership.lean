import StorageEngine.Lib.Ledger
import StorageEngine.Lib.Transition

/-! Who destroys a coroutine frame.  A `Task` owns the frame that it was made with, a move hands the
frame over together with the fact that it was started, and the destructor and the move assignment
destroy the frame that is left. -/

namespace StorageEngine

open Ledger Transition

/-- The members of a `Task`.  Frames have numbers, in the order in which they are made. -/
structure TaskObject where
  handle : Option Nat := none
  started : Bool := false
  deriving DecidableEq

/-- `handle_.destroy()`, if there is a frame. -/
def TaskObject.destroy (task : TaskObject) : List (Event Nat) :=
  match task.handle with
  | none => []
  | some frame => [.release frame]

/-- The `Task` objects of a program by their addresses, the frames that were made and destroyed, and
those that were resumed for the first time. -/
structure TaskHeap where
  objects : Nat → Option TaskObject := fun _ => none
  next : Nat := 0
  trace : List (Event Nat) := []
  starts : List Nat := []

namespace TaskHeap

def set (s : TaskHeap) (address : Nat) (object : Option TaskObject) : TaskHeap :=
  { s with objects := Function.update s.objects address object }

/-- A call of a coroutine, with the constructor of the `Task` it returns. -/
def create (s : TaskHeap) (address : Nat) : TaskHeap :=
  { s.set address (some { handle := some s.next }) with
    next := s.next + 1, trace := s.trace ++ [.acquire s.next] }

/-- The move constructor. -/
def moveConstruct (s : TaskHeap) (address other : Nat) (task : TaskObject) : TaskHeap :=
  (s.set other (some {})).set address (some task)

/-- The move assignment; `this` and `other` are the addresses. -/
def moveAssign (s : TaskHeap) (this other : Nat) (task source : TaskObject) : TaskHeap :=
  if this = other then s
  else
    { (s.set other (some {})).set this (some source) with trace := s.trace ++ task.destroy }

/-- `~Task`. -/
def destruct (s : TaskHeap) (address : Nat) (task : TaskObject) : TaskHeap :=
  { s.set address none with trace := s.trace ++ task.destroy }

/-- `start`, which `run` and `Awaiter::await_suspend` have in common. -/
def start (s : TaskHeap) (address frame : Nat) (task : TaskObject) : TaskHeap :=
  if task.started then s
  else { s.set address (some { task with started := true }) with starts := s.starts ++ [frame] }

/-- The operations of a program that constructs no object on top of another, and neither runs nor
awaits a `Task` without a frame. -/
inductive Step : TaskHeap → TaskHeap → Prop
  | create (s : TaskHeap) {address : Nat} (hfree : s.objects address = none) :
    Step s (s.create address)
  | moveConstruct (s : TaskHeap) {address other : Nat} {task : TaskObject}
    (hfree : s.objects address = none) (hother : s.objects other = some task) :
    Step s (s.moveConstruct address other task)
  | moveAssign (s : TaskHeap) {this other : Nat} {task source : TaskObject}
    (hthis : s.objects this = some task) (hother : s.objects other = some source) :
    Step s (s.moveAssign this other task source)
  | destruct (s : TaskHeap) {address : Nat} {task : TaskObject}
    (htask : s.objects address = some task) : Step s (s.destruct address task)
  | start (s : TaskHeap) {address frame : Nat} {task : TaskObject}
    (htask : s.objects address = some task) (hframe : task.handle = some frame) :
    Step s (s.start address frame task)

end TaskHeap

def taskHeap : System TaskHeap where
  initial s := s = {}
  step := TaskHeap.Step

namespace TaskHeap

def Owns (objects : Nat → Option TaskObject) (address frame : Nat) (started : Bool) : Prop :=
  objects address = some ⟨some frame, started⟩

theorem owns_update {objects : Nat → Option TaskObject} {address address' frame : Nat}
    {object : Option TaskObject} {started : Bool} :
    Owns (Function.update objects address object) address' frame started ↔
      address' = address ∧ object = some ⟨some frame, started⟩ ∨
        address' ≠ address ∧ Owns objects address' frame started := by
  unfold Owns
  by_cases h : address' = address <;> simp [h]

/-- Every frame that is there has one owner, which knows whether the frame was started. -/
structure Owned (s : TaskHeap) : Prop where
  held : ∃ held : Multiset Nat, Ledger.run (fun _ _ => false) 0 s.trace = some held ∧
    held.Nodup ∧ ∀ frame, frame ∈ held ↔ ∃ address started, Owns s.objects address frame started
  unique : ∀ {address address' frame started started'}, Owns s.objects address frame started →
    Owns s.objects address' frame started' → address = address'
  below : ∀ {address frame started}, Owns s.objects address frame started → frame < s.next
  starts_lt : ∀ frame ∈ s.starts, frame < s.next
  starts_nodup : s.starts.Nodup
  started : ∀ {address frame started}, Owns s.objects address frame started →
    (started = true ↔ frame ∈ s.starts)

variable {s : TaskHeap}

theorem Owned.create (h : s.Owned) {address : Nat} (hfree : s.objects address = none) :
    (s.create address).Owned := by
  have howns : ∀ {address' frame started},
      Owns (s.create address).objects address' frame started ↔
        address' = address ∧ frame = s.next ∧ started = false ∨
          Owns s.objects address' frame started := by
    intro address' frame started
    rw [TaskHeap.create, set, owns_update]
    by_cases heq : address' = address <;> simp [heq, Owns, hfree, eq_comm]
  obtain ⟨held, hrun, hnodup, hmem⟩ := h.held
  have hnew : s.next ∉ held := by
    intro hheld
    obtain ⟨_, _, hown⟩ := (hmem s.next).mp hheld
    exact (h.below hown).false
  exact
    { held := by
        refine ⟨s.next ::ₘ held, run_append_of _ hrun _, Multiset.nodup_cons.mpr ⟨hnew, hnodup⟩,
          fun frame => ?_⟩
        simp only [howns, Multiset.mem_cons, hmem, exists_or]
        simp
      unique := by
        intro address₁ address₂ frame _ _ hown hown'
        rcases howns.mp hown with ⟨heq, hframe, -⟩ | hold <;>
          rcases howns.mp hown' with ⟨heq', hframe', -⟩ | hold'
        · exact heq.trans heq'.symm
        · exact absurd (hframe ▸ h.below hold') (lt_irrefl _)
        · exact absurd (hframe' ▸ h.below hold) (lt_irrefl _)
        · exact h.unique hold hold'
      below := by
        intro _ frame _ hown
        rcases howns.mp hown with ⟨-, rfl, -⟩ | hown
        · exact Nat.lt_succ_self _
        · exact Nat.lt_succ_of_lt (h.below hown)
      starts_lt := fun frame hframe => Nat.lt_succ_of_lt (h.starts_lt frame hframe)
      starts_nodup := h.starts_nodup
      started := by
        intro _ frame _ hown
        rcases howns.mp hown with ⟨-, rfl, rfl⟩ | hown
        · exact ⟨fun hstarted => absurd hstarted (by simp),
            fun hstart => absurd (h.starts_lt _ hstart) (lt_irrefl _)⟩
        · exact h.started hown }

/-- The frame of an object is destroyed, and the object keeps none. -/
theorem Owned.release (h : s.Owned) {address : Nat} {task : TaskObject}
    (htask : s.objects address = some task) {object : Option TaskObject}
    (hobject : ∀ frame started, object ≠ some ⟨some frame, started⟩) :
    Owned { s.set address object with trace := s.trace ++ task.destroy } := by
  have howns : ∀ {address' frame started},
      Owns (s.set address object).objects address' frame started ↔
        address' ≠ address ∧ Owns s.objects address' frame started := by
    intro address' frame started
    rw [set, owns_update]
    simp [hobject]
  obtain ⟨held, hrun, hnodup, hmem⟩ := h.held
  exact
    { held := by
        obtain ⟨handle, started⟩ := task
        cases handle with
        | none =>
          refine ⟨held, by simpa [TaskObject.destroy] using hrun, hnodup, fun frame => ?_⟩
          have hne : ∀ {address' started'}, Owns s.objects address' frame started' →
              address' ≠ address := by
            rintro address' started' hown rfl
            rw [Owns, htask] at hown
            simp at hown
          simp only [howns, hmem]
          exact exists₂_congr fun _ _ => ⟨fun hown => ⟨hne hown, hown⟩, And.right⟩
        | some frame =>
          obtain ⟨rest, rfl⟩ :=
            Multiset.exists_cons_of_mem ((hmem frame).mpr ⟨address, started, htask⟩)
          obtain ⟨hfresh, hrest⟩ := Multiset.nodup_cons.mp hnodup
          refine ⟨rest, ?_, hrest, fun frame' => ?_⟩
          · exact (run_append_of _ hrun _).trans (run_release _ fun _ _ => rfl)
          simp only [howns]
          constructor
          · intro hframe'
            obtain ⟨address', started', hown⟩ := (hmem frame').mp (Multiset.mem_cons_of_mem hframe')
            refine ⟨address', started', ?_, hown⟩
            rintro rfl
            rw [Owns, htask] at hown
            simp_all
          · rintro ⟨address', started', hne, hown⟩
            rcases Multiset.mem_cons.mp ((hmem frame').mpr ⟨address', started', hown⟩) with
              rfl | hframe'
            · exact absurd (h.unique hown htask) hne
            · exact hframe'
      unique := fun hown hown' => h.unique (howns.mp hown).2 (howns.mp hown').2
      below := fun hown => h.below (howns.mp hown).2
      starts_lt := h.starts_lt
      starts_nodup := h.starts_nodup
      started := fun hown => h.started (howns.mp hown).2 }

/-- An object hands its members over to one without a frame. -/
theorem Owned.handOver (h : s.Owned) {address other : Nat} {task : TaskObject}
    (hempty : ∀ frame started, ¬ Owns s.objects address frame started)
    (hother : s.objects other = some task) :
    Owned ((s.set other (some {})).set address (some task)) := by
  have howns : ∀ {address' frame started},
      Owns ((s.set other (some {})).set address (some task)).objects address' frame started ↔
        address' = address ∧ Owns s.objects other frame started ∨
          address' ≠ address ∧ address' ≠ other ∧ Owns s.objects address' frame started := by
    intro address' frame started
    rw [set, owns_update, set, owns_update]
    simp [Owns, hother]
  obtain ⟨held, hrun, hnodup, hmem⟩ := h.held
  exact
    { held := by
        refine ⟨held, hrun, hnodup, fun frame => (hmem frame).trans ⟨?_, ?_⟩⟩
        · rintro ⟨address', started, hown⟩
          by_cases heq : address' = other
          · exact ⟨address, started, howns.mpr (.inl ⟨rfl, heq ▸ hown⟩)⟩
          · have hne' : address' ≠ address := fun heq' => hempty _ _ (heq' ▸ hown)
            exact ⟨address', started, howns.mpr (.inr ⟨hne', heq, hown⟩)⟩
        · rintro ⟨address', started, hown⟩
          rcases howns.mp hown with ⟨-, hown⟩ | ⟨-, -, hown⟩
          · exact ⟨other, started, hown⟩
          · exact ⟨address', started, hown⟩
      unique := by
        intro address₁ address₂ frame _ _ hown hown'
        rcases howns.mp hown with ⟨heq, hold⟩ | ⟨-, hne₁, hold⟩ <;>
          rcases howns.mp hown' with ⟨heq', hold'⟩ | ⟨-, hne₂, hold'⟩
        · exact heq.trans heq'.symm
        · exact absurd (h.unique hold' hold) hne₂
        · exact absurd (h.unique hold hold') hne₁
        · exact h.unique hold hold'
      below := by
        intro _ frame _ hown
        rcases howns.mp hown with ⟨-, hown⟩ | ⟨-, -, hown⟩ <;> exact h.below hown
      starts_lt := h.starts_lt
      starts_nodup := h.starts_nodup
      started := by
        intro _ frame _ hown
        rcases howns.mp hown with ⟨-, hown⟩ | ⟨-, -, hown⟩ <;> exact h.started hown }

theorem Owned.moveAssign (h : s.Owned) {this other : Nat} {task source : TaskObject}
    (hthis : s.objects this = some task) (hother : s.objects other = some source) :
    (s.moveAssign this other task source).Owned := by
  unfold TaskHeap.moveAssign
  split
  case isTrue => exact h
  case isFalse hne =>
    have hreleased : Owned { s.set this (some {}) with trace := s.trace ++ task.destroy } :=
      h.release hthis (by simp)
    have hmoved := @Owned.handOver _ hreleased this other source (by simp [Owns, set])
      (by simp [set, Ne.symm hne, hother])
    have hobjects : Function.update (Function.update (Function.update s.objects this (some {}))
        other (some {})) this (some source) =
        Function.update (Function.update s.objects other (some {})) this (some source) := by
      funext address
      by_cases haddress : address = this <;> simp [Function.update_apply, haddress]
    simpa only [set, hobjects] using hmoved

theorem Owned.start (h : s.Owned) {address frame : Nat} {task : TaskObject}
    (htask : s.objects address = some task) (hframe : task.handle = some frame) :
    (s.start address frame task).Owned := by
  unfold TaskHeap.start
  split
  case isTrue => exact h
  case isFalse hstarted =>
    have hown : Owns s.objects address frame false := by
      rw [Owns, htask, ← hframe, ← Bool.eq_false_of_not_eq_true hstarted]
    have howns : ∀ {address' frame' started},
        Owns (s.set address (some { task with started := true })).objects address' frame' started ↔
          address' = address ∧ frame' = frame ∧ started = true ∨
            address' ≠ address ∧ Owns s.objects address' frame' started := by
      intro address' frame' started
      rw [set, owns_update]
      simp [hframe, eq_comm]
    have hnew : frame ∉ s.starts := fun hmem => by simpa using (h.started hown).mpr hmem
    obtain ⟨held, hrun, hnodup, hmem⟩ := h.held
    exact
      { held := by
          refine ⟨held, hrun, hnodup, fun frame' => (hmem frame').trans ⟨?_, ?_⟩⟩
          · rintro ⟨address', started, hold⟩
            by_cases heq : address' = address
            · subst heq
              have hsame := hold.symm.trans hown
              simp only [Option.some.injEq, TaskObject.mk.injEq] at hsame
              exact ⟨address', true, howns.mpr (.inl ⟨rfl, hsame.1, rfl⟩)⟩
            · exact ⟨address', started, howns.mpr (.inr ⟨heq, hold⟩)⟩
          · rintro ⟨address', started, hnow⟩
            rcases howns.mp hnow with ⟨-, rfl, -⟩ | ⟨-, hold⟩
            · exact ⟨address, false, hown⟩
            · exact ⟨address', started, hold⟩
        unique := by
          intro address₁ address₂ frame' _ _ hnow hnow'
          rcases howns.mp hnow with ⟨heq, hframe₁, -⟩ | ⟨hne, hold⟩ <;>
            rcases howns.mp hnow' with ⟨heq', hframe₂, -⟩ | ⟨hne', hold'⟩
          · exact heq.trans heq'.symm
          · exact absurd (h.unique hold' (hframe₁ ▸ hown)) hne'
          · exact absurd (h.unique hold (hframe₂ ▸ hown)) hne
          · exact h.unique hold hold'
        below := by
          intro _ frame' _ hnow
          rcases howns.mp hnow with ⟨-, rfl, -⟩ | ⟨-, hold⟩
          · exact h.below hown
          · exact h.below hold
        starts_lt := by
          intro frame' hframe'
          rcases List.mem_append.mp hframe' with hframe' | hframe'
          · exact h.starts_lt frame' hframe'
          · rw [List.mem_singleton.mp hframe']
            exact h.below hown
        starts_nodup := by
          rw [List.nodup_append]
          refine ⟨h.starts_nodup, List.nodup_singleton frame, ?_⟩
          rintro a ha b hb rfl
          exact hnew (List.mem_singleton.mp hb ▸ ha)
        started := by
          intro address' frame' started hnow
          rcases howns.mp hnow with ⟨-, rfl, rfl⟩ | ⟨hne, hold⟩
          · simp
          · have hother : frame' ≠ frame := fun heq => hne (h.unique (heq ▸ hold) hown)
            simp [h.started hold, hother] }

theorem owned_of_reachable (h : Reachable taskHeap s) : s.Owned := by
  apply h.invariant
  · rintro s rfl
    exact
      { held := ⟨0, rfl, Multiset.nodup_zero, by simp [Owns]⟩
        unique := by simp [Owns]
        below := by simp [Owns]
        starts_lt := by simp
        starts_nodup := List.nodup_nil
        started := by simp [Owns] }
  · rintro s t - hs hst
    cases hst with
    | create hfree => exact hs.create hfree
    | moveConstruct hfree hother =>
      exact hs.handOver (by simp [Owns, hfree]) hother
    | moveAssign hthis hother => exact hs.moveAssign hthis hother
    | destruct htask => exact hs.release htask (by simp)
    | start htask hframe => exact hs.start htask hframe

end TaskHeap

/-- However `Task` objects are made, moved, assigned, started and destroyed, a frame that has not
been destroyed has exactly one owner, a frame is destroyed at most once, and it is started at most
once, by whichever object owns it at that time. -/
theorem task_frames_have_one_owner {s : TaskHeap} (h : Reachable taskHeap s) :
    ∃ held : Multiset Nat, Ledger.run (fun _ _ => false) 0 s.trace = some held ∧ held.Nodup ∧
      (∀ frame, frame ∈ held ↔
        ∃! address, ∃ started, TaskHeap.Owns s.objects address frame started) ∧
      s.starts.Nodup := by
  have howned := TaskHeap.owned_of_reachable h
  obtain ⟨held, hrun, hnodup, hmem⟩ := howned.held
  refine ⟨held, hrun, hnodup, fun frame => (hmem frame).trans ⟨?_, ?_⟩, howned.starts_nodup⟩
  · rintro ⟨address, started, hown⟩
    refine ⟨address, ⟨started, hown⟩, ?_⟩
    rintro address' ⟨started', hown'⟩
    exact howned.unique hown' hown
  · rintro ⟨address, ⟨started, hown⟩, -⟩
    exact ⟨address, started, hown⟩

/-- A started task that is moved over another one, and run once more. -/
theorem task_frames_have_one_owner_after_moves :
    ∃ s, Reachable taskHeap s ∧ s.starts = [0] ∧ s.trace = [.acquire 0, .acquire 1, .release 1] ∧
      ∃ held : Multiset Nat, Ledger.run (fun _ _ => false) 0 s.trace = some held ∧ held.Nodup ∧
        (∀ frame, frame ∈ held ↔
          ∃! address, ∃ started, TaskHeap.Owns s.objects address frame started) ∧
        s.starts.Nodup := by
  have hmade : Reachable taskHeap _ := .step (.initial rfl) (@TaskHeap.Step.create {} 5 rfl)
  have hstarted := hmade.step (@TaskHeap.Step.start _ 5 _ _ rfl rfl)
  have hother := hstarted.step (@TaskHeap.Step.create _ 7 rfl)
  have hmoved := hother.step (@TaskHeap.Step.moveAssign _ 7 5 _ _ rfl rfl)
  have hagain := hmoved.step (@TaskHeap.Step.start _ 7 _ _ rfl rfl)
  exact ⟨_, hagain, rfl, rfl, task_frames_have_one_owner hagain⟩

end StorageEngine
