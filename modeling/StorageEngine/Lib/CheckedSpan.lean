import Mathlib.Algebra.GroupWithZero.Nat
import Mathlib.Data.List.GetD
import Mathlib.Tactic.Common

/-! Programs over spans and offsets in which every access and every addition is checked.  An access
outside its span, a sum that does not fit its word, and a loop that uses up its turns are faults, so
that a program without faults reads only what its spans hold, computes with offsets as with natural
numbers, and ends. -/

namespace CheckedSpan

inductive Fault where
  | outOfBounds
  | wrapped
  | outOfTurns
  deriving DecidableEq

abbrev Checked (α : Type) := Except Fault α

variable {α σ : Type}

/-- The sum of two words of `w` bits. -/
def add (w a b : Nat) : Checked Nat := if a + b < 2 ^ w then .ok (a + b) else .error .wrapped

def index (xs : List α) (i : Nat) : Checked α :=
  match xs[i]? with
  | none => .error .outOfBounds
  | some x => .ok x

/-- The `count` elements from `offset` on. -/
def slice (xs : List α) (offset count : Nat) : Checked (List α) :=
  if offset + count ≤ xs.length then .ok ((xs.drop offset).take count) else .error .outOfBounds

@[simp] theorem ok_bind {β : Type} (a : α) (f : α → Checked β) : (Except.ok a >>= f) = f a := rfl

theorem add_eq {w a b : Nat} (h : a + b < 2 ^ w) : add w a b = .ok (a + b) := if_pos h

theorem index_eq {xs : List α} {i : Nat} (h : i < xs.length) (default : α) :
    index xs i = .ok (xs.getD i default) := by
  rw [index, List.getElem?_eq_getElem h, List.getD_eq_getElem _ _ h]

theorem slice_eq {xs : List α} {offset count : Nat} (h : offset + count ≤ xs.length) :
    slice xs offset count = .ok ((xs.drop offset).take count) := if_pos h

/-- A loop over a list whose steps have no faults. -/
theorem foldlM_eq {f : σ → α → Checked σ} {g : σ → α → σ} {xs : List α}
    (h : ∀ x ∈ xs, ∀ s, f s x = .ok (g s x)) (s : σ) : xs.foldlM f s = .ok (xs.foldl g s) := by
  induction xs generalizing s with
  | nil => rfl
  | cons x xs ih =>
    obtain ⟨hx, hxs⟩ := List.forall_mem_cons.mp h
    rw [List.foldlM_cons, hx, ok_bind, ih hxs, List.foldl_cons]

end CheckedSpan
