import Mathlib.Tactic.Common

/-! Overwriting a stretch of a list in place. -/

variable {α : Type}

/-- `old` with `new.length` elements from `offset` on replaced by `new`. -/
def splice (old : List α) (offset : Nat) (new : List α) : List α :=
  old.take offset ++ new ++ old.drop (offset + new.length)

theorem length_splice {old new : List α} {offset : Nat} (h : offset + new.length ≤ old.length) :
    (splice old offset new).length = old.length := by
  simp [splice]; omega

theorem drop_splice {old new : List α} {offset n : Nat} (hn : offset + new.length ≤ n)
    (h : offset ≤ old.length) : (splice old offset new).drop n = old.drop n := by
  have hlen : (old.take offset ++ new).length = offset + new.length := by simp; omega
  rw [splice, List.drop_append, hlen, List.drop_of_length_le (by omega), List.drop_drop,
    show offset + new.length + (n - (offset + new.length)) = n by omega]
  rfl

theorem drop_take_splice {old : List α} (new : List α) {offset : Nat} (h : offset ≤ old.length) :
    ((splice old offset new).drop offset).take new.length = new := by
  have hlen : (old.take offset).length = offset := by simp; omega
  rw [splice, List.append_assoc, List.drop_left' hlen, List.take_left' rfl]

theorem splice_splice {old : List α} (a b : List α) {offset : Nat} (h : offset ≤ old.length) :
    splice (splice old offset a) (offset + a.length) b = splice old offset (a ++ b) := by
  have hfront : (splice old offset a).take (offset + a.length) = old.take offset ++ a := by
    rw [splice, List.take_left' (by simp; omega)]
  rw [splice, hfront, drop_splice (by omega) (by omega), splice, List.length_append]
  simp [Nat.add_assoc]

theorem set_eq_splice (old : List α) {offset : Nat} (b : α) (h : offset < old.length) :
    old.set offset b = splice old offset [b] := by
  rw [List.set_eq_take_append_cons_drop, if_pos h, splice]
  simp

theorem splice_middle {front middle new : List α} (rest : List α) {offset : Nat}
    (hfront : front.length = offset) (hmiddle : middle.length = new.length) :
    splice (front ++ middle ++ rest) offset new = front ++ new ++ rest := by
  rw [splice, List.append_assoc front, List.take_left' hfront, ← hmiddle, ← List.drop_drop,
    List.drop_left' hfront, List.drop_left' rfl]

theorem splice_append (front rest new : List α) :
    splice (front ++ rest) front.length new = front ++ new ++ rest.drop new.length := by
  rw [splice, List.take_left' rfl, ← List.drop_drop, List.drop_left' rfl]
