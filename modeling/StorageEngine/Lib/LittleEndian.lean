import Mathlib.Algebra.GroupWithZero.Nat
import Mathlib.Data.List.GetD
import Mathlib.Tactic.Common

/-! Words of any width as byte strings, the lowest byte first.  `bytes` splits a word and `word`
puts one together; each undoes the other as long as no bits are cut off. -/

namespace LittleEndian

/-- The low `n` bytes of `v`, lowest first. -/
def bytes {w : Nat} (n : Nat) (v : BitVec w) : List (BitVec 8) :=
  (List.range n).map fun i => v.extractLsb' (8 * i) 8

/-- The word of width `w` with the bytes `bs`, lowest first. -/
def word (w : Nat) : List (BitVec 8) → BitVec w
  | [] => 0#w
  | b :: bs => b.setWidth w ||| (word w bs <<< 8)

@[simp] theorem length_bytes {w : Nat} (n : Nat) (v : BitVec w) : (bytes n v).length = n := by
  simp [bytes]

theorem bytes_succ {w : Nat} (n : Nat) (v : BitVec w) :
    bytes (n + 1) v = bytes n v ++ [v.extractLsb' (8 * n) 8] := by
  simp [bytes, List.range_succ]

theorem getD_bytes {w : Nat} {n i : Nat} (v : BitVec w) (hi : i < n) :
    (bytes n v).getD i 0#8 = v.extractLsb' (8 * i) 8 := by
  rw [List.getD_eq_getElem _ _ (by simpa using hi)]
  simp [bytes]

theorem getLsbD_word (w : Nat) (bs : List (BitVec 8)) (j : Nat) :
    (word w bs).getLsbD j = (decide (j < w) && (bs.getD (j / 8) 0#8).getLsbD (j % 8)) := by
  induction bs generalizing j with
  | nil => simp [word]
  | cons b bs ih =>
    rw [word, BitVec.getLsbD_or, BitVec.getLsbD_setWidth, BitVec.getLsbD_shiftLeft, ih]
    by_cases hj : j < 8
    · rw [show j / 8 = 0 by omega, show j % 8 = j by omega, List.getD_cons_zero]
      simp [hj]
    · rw [show j / 8 = (j - 8) / 8 + 1 by omega, show j % 8 = (j - 8) % 8 by omega,
        List.getD_cons_succ, BitVec.getLsbD_of_ge b j (by omega)]
      by_cases hw : j < w
      · simp [hj, hw, show j - 8 < w by omega]
      · simp [hw]

theorem word_bytes {w n : Nat} (v : BitVec w) (hw : w ≤ 8 * n) : word w (bytes n v) = v := by
  apply BitVec.eq_of_getLsbD_eq
  intro j hj
  rw [getLsbD_word, getD_bytes v (show j / 8 < n by omega), BitVec.getLsbD_extractLsb',
    show 8 * (j / 8) + j % 8 = j by omega]
  simp [hj, show j % 8 < 8 by omega]

theorem bytes_word {w : Nat} (bs : List (BitVec 8)) (hw : 8 * bs.length ≤ w) :
    bytes bs.length (word w bs) = bs := by
  apply List.ext_getElem (by simp)
  intro i _ hi
  apply BitVec.eq_of_getLsbD_eq
  intro j hj
  simp only [bytes, List.getElem_map, List.getElem_range, BitVec.getLsbD_extractLsb',
    getLsbD_word, show (8 * i + j) / 8 = i by omega, show (8 * i + j) % 8 = j by omega,
    List.getD_eq_getElem _ _ hi]
  simp [hj, show 8 * i + j < w by omega]

theorem word_injective {w : Nat} {as bs : List (BitVec 8)} (hlen : as.length = bs.length)
    (hw : 8 * as.length ≤ w) (h : word w as = word w bs) : as = bs := by
  rw [← bytes_word as hw, h, hlen, bytes_word bs (by omega)]

/-- Clearing bits of the bytes of a word clears bits of the word. -/
theorem word_toNat_le {w : Nat} {as bs : List (BitVec 8)}
    (h : ∀ i, as.getD i 0#8 &&& bs.getD i 0#8 = as.getD i 0#8) :
    (word w as).toNat ≤ (word w bs).toNat := by
  have hand : word w as &&& word w bs = word w as := by
    apply BitVec.eq_of_getLsbD_eq
    intro j hj
    have := congrArg (fun b => b.getLsbD (j % 8)) (h (j / 8))
    simp only [BitVec.getLsbD_and] at this
    simp only [BitVec.getLsbD_and, getLsbD_word, hj, decide_true, Bool.true_and]
    exact this
  have hle : (word w as &&& word w bs).toNat ≤ (word w bs).toNat := by
    rw [BitVec.toNat_and]
    exact Nat.and_le_right
  rwa [hand] at hle

end LittleEndian
