import Mathlib.Data.Multiset.AddSub
import Mathlib.Algebra.Order.Group.Multiset
import Mathlib.Tactic.Common

/-! Ledgers of resources.  A trace of acquisitions and releases is in order when nothing is released
that is not held, or while something that is held needs it; what is held in the end is then the
balance of the trace. -/

namespace Ledger

variable {ρ : Type}

inductive Event (ρ : Type) where
  | acquire (r : ρ)
  | release (r : ρ)
  deriving DecidableEq

/-! ### Resources that may be there -/

def part (c : Bool) (r : ρ) : Multiset ρ := if c then {r} else 0

def releases (c : Bool) (r : ρ) : List (Event ρ) := if c then [.release r] else []

theorem mem_part {c : Bool} {r r' : ρ} (h : r' ∈ part c r) : r' = r := by
  unfold part at h
  split at h
  · exact Multiset.mem_singleton.mp h
  · simp at h

/-! ### Traces -/

variable [DecidableEq ρ]

/-- What is held after an event, unless the event is out of order. -/
def step (needs : ρ → ρ → Bool) (held : Multiset ρ) : Event ρ → Option (Multiset ρ)
  | .acquire r => some (r ::ₘ held)
  | .release r =>
    if r ∈ held ∧ ∀ r' ∈ held, needs r' r = false then some (held.erase r) else none

def run (needs : ρ → ρ → Bool) (held : Multiset ρ) (events : List (Event ρ)) :
    Option (Multiset ρ) :=
  events.foldlM (step needs) held

variable (needs : ρ → ρ → Bool)

@[simp] theorem run_nil (held : Multiset ρ) : run needs held [] = some held := rfl

theorem run_append (held : Multiset ρ) (events later : List (Event ρ)) :
    run needs held (events ++ later) = (run needs held events).bind (run needs · later) :=
  List.foldlM_append

theorem run_append_of {held held' : Multiset ρ} {events : List (Event ρ)}
    (h : run needs held events = some held') (later : List (Event ρ)) :
    run needs held (events ++ later) = run needs held' later := by
  rw [run_append, h, Option.bind_some]

/-- Two traces, each of which is out of order on a condition. -/
theorem run_append_ite {held held' held'' : Multiset ρ} {events later : List (Event ρ)}
    {c d : Bool} (h : run needs held events = if c then none else some held')
    (hlater : run needs held' later = if d then none else some held'') :
    run needs held (events ++ later) = if c || d then none else some held'' := by
  rw [run_append, h]
  cases c with
  | true => simp
  | false => simpa using hlater

@[simp] theorem run_acquire (held : Multiset ρ) (r : ρ) :
    run needs held [.acquire r] = some (r ::ₘ held) := rfl

theorem run_release {held : Multiset ρ} {r : ρ}
    (h : ∀ r' ∈ r ::ₘ held, needs r' r = false) :
    run needs (r ::ₘ held) [.release r] = some held := by
  have hstep : step needs (r ::ₘ held) (.release r) = some held := by
    rw [step, if_pos ⟨Multiset.mem_cons_self r held, h⟩, Multiset.erase_cons_head]
  simp [run, hstep]

theorem run_release_needed {held : Multiset ρ} {r r' : ρ} (hr' : r' ∈ held)
    (h : needs r' r = true) : run needs held [.release r] = none := by
  have hstep : step needs held (.release r) = none := by
    rw [step, if_neg]
    rintro ⟨-, hfree⟩
    simp [hfree r' hr'] at h
  simp [run, hstep]

theorem run_releases {held : Multiset ρ} {c : Bool} {r : ρ}
    (h : ∀ r' ∈ part c r + held, needs r' r = false) :
    run needs (part c r + held) (releases c r) = some held := by
  cases c with
  | false => simp [part, releases]
  | true =>
    have hcons : part true r + held = r ::ₘ held := Multiset.singleton_add r held
    rw [hcons] at h ⊢
    exact run_release needs h

end Ledger
