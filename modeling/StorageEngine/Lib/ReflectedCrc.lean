import Mathlib.Data.List.GetD
import Mathlib.Logic.Function.Iterate
import Mathlib.Tactic.Common

/-! Reflected cyclic redundancy checks of any width and polynomial, one input bit at a time.  A
shift of the remainder is linear in exclusive or, and it is injective when the polynomial's top bit
is set.  Up to `w` input bits enter a remainder of width `w` by one exclusive or before the shifts
(`feed_eq_iterate`), so two remainders that differ stay different under equal input, and two inputs
of equal length that differ in a window of at most `w` bits leave different remainders. -/

namespace ReflectedCrc

variable {w : Nat} (poly : BitVec w)

/-- One shift of the remainder: the low bit leaves, and the polynomial is added if it was set. -/
def shift (c : BitVec w) : BitVec w :=
  if c.getLsbD 0 then (c >>> 1) ^^^ poly else c >>> 1

/-- One input bit, as a remainder with that low bit. -/
def unit (w : Nat) (b : Bool) : BitVec w := (BitVec.ofBool b).setWidth w

/-- The remainder `c` after the input bits `bs`, the first bit first. -/
def feed (c : BitVec w) (bs : List Bool) : BitVec w :=
  bs.foldl (fun c b => shift poly (c ^^^ unit w b)) c

@[simp] theorem feed_nil (c : BitVec w) : feed poly c [] = c := rfl

@[simp] theorem feed_cons (c : BitVec w) (b : Bool) (bs : List Bool) :
    feed poly c (b :: bs) = feed poly (shift poly (c ^^^ unit w b)) bs := rfl

theorem feed_append (c : BitVec w) (as bs : List Bool) :
    feed poly c (as ++ bs) = feed poly (feed poly c as) bs := List.foldl_append

/-! ### Linearity -/

theorem shift_xor (a b : BitVec w) : shift poly (a ^^^ b) = shift poly a ^^^ shift poly b := by
  unfold shift
  rw [BitVec.getLsbD_xor, BitVec.ushiftRight_xor_distrib]
  cases a.getLsbD 0 <;> cases b.getLsbD 0
  · rfl
  · simp only [Bool.false_xor, if_true, Bool.false_eq_true, if_false]
    rw [BitVec.xor_assoc]
  · simp only [Bool.xor_false, if_true, Bool.false_eq_true, if_false]
    rw [BitVec.xor_assoc, BitVec.xor_comm (b >>> 1), ← BitVec.xor_assoc]
  · -- Both low bits leave, and the two copies of the polynomial cancel.
    simp only [Bool.xor_true, Bool.not_true, Bool.false_eq_true, if_false, if_true]
    rw [BitVec.xor_comm (b >>> 1) poly, BitVec.xor_assoc, ← BitVec.xor_assoc poly,
      BitVec.xor_self, BitVec.zero_xor]

theorem iterate_shift_xor (n : Nat) (a b : BitVec w) :
    (shift poly)^[n] (a ^^^ b) = (shift poly)^[n] a ^^^ (shift poly)^[n] b := by
  induction n generalizing a b with
  | zero => rfl
  | succ n ih => simp only [Function.iterate_succ_apply, shift_xor, ih]

theorem iterate_shift_of_clear (n : Nat) (c : BitVec w) (hc : ∀ i < n, c.getLsbD i = false) :
    (shift poly)^[n] c = c >>> n := by
  induction n with
  | zero => simp
  | succ n ih =>
    rw [Function.iterate_succ_apply', ih fun i hi => hc i (by omega)]
    have hlow : (c >>> n).getLsbD 0 = false := by simpa using hc n (by omega)
    simp [shift, hlow, BitVec.shiftRight_add]

/-- `n` shifts of `c`: those of its low `n` bits, and the rest of it moved down `n` places. -/
theorem iterate_shift_split (n : Nat) (c : BitVec w) :
    (shift poly)^[n] c = (c >>> n) ^^^ (shift poly)^[n] ((c.setWidth n).setWidth w) := by
  have hsplit : c = (c ^^^ (c.setWidth n).setWidth w) ^^^ (c.setWidth n).setWidth w := by
    rw [BitVec.xor_assoc, BitVec.xor_self, BitVec.xor_zero]
  have hclear : ∀ i < n, (c ^^^ (c.setWidth n).setWidth w).getLsbD i = false := by
    intro i hi
    by_cases hw : i < w
    · simp [hi, hw]
    · simp [BitVec.getLsbD_of_ge c i (by omega), hw]
  have hmove : (c ^^^ (c.setWidth n).setWidth w) >>> n = c >>> n := by
    apply BitVec.eq_of_getLsbD_eq
    intro i _
    simp
  conv => lhs; rw [hsplit]
  rw [iterate_shift_xor, iterate_shift_of_clear poly n _ hclear, hmove]

/-! ### Injectivity -/

theorem shift_msb (hp : poly.msb = true) (c : BitVec w) :
    (shift poly c).msb = c.getLsbD 0 := by
  have hmove : (c >>> 1).msb = false := by simp [BitVec.msb_ushiftRight]
  unfold shift
  cases h : c.getLsbD 0
  · simp [hmove]
  · simp [BitVec.msb_xor, hp]

theorem shift_injective (hp : poly.msb = true) : Function.Injective (shift poly) := by
  intro a b hab
  have hlow : a.getLsbD 0 = b.getLsbD 0 := by
    rw [← shift_msb poly hp a, hab, shift_msb poly hp b]
  have hmove : a >>> 1 = b >>> 1 := by
    unfold shift at hab
    rw [hlow] at hab
    split at hab
    · exact (BitVec.xor_left_inj poly).mp hab
    · exact hab
  apply BitVec.eq_of_getLsbD_eq
  intro i _
  cases i with
  | zero => exact hlow
  | succ i =>
    have := congrArg (fun v => v.getLsbD i) hmove
    simpa [Nat.add_comm] using this

theorem feed_injective (hp : poly.msb = true) (bs : List Bool) :
    Function.Injective fun c => feed poly c bs := by
  induction bs with
  | nil => exact fun _ _ h => h
  | cons b bs ih =>
    intro c d hcd
    exact (BitVec.xor_left_inj (unit w b)).mp (shift_injective poly hp (ih hcd))

/-! ### Bursts -/

/-- The bits `bs` as one word, the first bit lowest. -/
def word (w : Nat) : List Bool → BitVec w
  | [] => 0#w
  | b :: bs => unit w b ^^^ (word w bs <<< 1)

theorem getLsbD_unit (b : Bool) (i : Nat) :
    (unit w b).getLsbD i = (decide (i < w) && (decide (i = 0) && b)) := by
  cases i <;> cases b <;> simp [unit, BitVec.getLsbD_setWidth]

theorem getLsbD_word (bs : List Bool) (i : Nat) :
    (word w bs).getLsbD i = (decide (i < w) && bs.getD i false) := by
  induction bs generalizing i with
  | nil => simp [word]
  | cons b bs ih =>
    rw [word, BitVec.getLsbD_xor, getLsbD_unit, BitVec.getLsbD_shiftLeft, ih]
    cases i with
    | zero => simp
    | succ i =>
      by_cases hi : i + 1 < w
      · simp [hi, show i < w by omega]
      · simp [hi]

theorem word_injective {as bs : List Bool} (ha : as.length ≤ w) (hab : as.length = bs.length)
    (h : word w as = word w bs) : as = bs := by
  apply List.ext_getElem hab
  intro i hi hi'
  have := congrArg (fun v => v.getLsbD i) h
  simp only [getLsbD_word, List.getD_eq_getElem _ _ hi, List.getD_eq_getElem _ _ hi',
    show i < w by omega, decide_true, Bool.true_and] at this
  exact this

/-- At most `w` input bits enter the remainder all at once, before the shifts. -/
theorem feed_eq_iterate (c : BitVec w) (bs : List Bool) (hlen : bs.length ≤ w) :
    feed poly c bs = (shift poly)^[bs.length] (c ^^^ word w bs) := by
  induction bs generalizing c with
  | nil => simp [word]
  | cons b bs ih =>
    have hlow : (word w bs <<< 1).getLsbD 0 = false := by simp
    have hback : (word w bs <<< 1) >>> 1 = word w bs := by
      apply BitVec.eq_of_getLsbD_eq
      intro i hi
      rw [BitVec.getLsbD_ushiftRight, BitVec.getLsbD_shiftLeft, getLsbD_word, getLsbD_word]
      by_cases h : 1 + i < w
      · simp [h, hi]
      · simp only [List.length_cons] at hlen
        rw [List.getD_eq_default bs false (show bs.length ≤ i by omega)]
        simp [h]
    have hshift : shift poly (word w bs <<< 1) = word w bs := by
      simp only [shift, hlow, Bool.false_eq_true, if_false, hback]
    simp only [List.length_cons] at hlen
    rw [feed_cons, ih _ (by omega), List.length_cons, Function.iterate_succ_apply, word,
      ← BitVec.xor_assoc, shift_xor poly (c ^^^ unit w b), hshift]

def bits {n : Nat} (v : BitVec n) : List Bool := (List.range n).map v.getLsbD

@[simp] theorem length_bits {n : Nat} (v : BitVec n) : (bits v).length = n := by simp [bits]

theorem bits_injective {n : Nat} : Function.Injective (bits (n := n)) := by
  intro u v h
  apply BitVec.eq_of_getLsbD_eq
  intro i hi
  have := congrArg (fun l => l[i]?) h
  simpa [bits, hi] using this

theorem word_bits {n : Nat} (v : BitVec n) : word w (bits v) = v.setWidth w := by
  apply BitVec.eq_of_getLsbD_eq
  intro i hi
  rw [getLsbD_word, BitVec.getLsbD_setWidth]
  by_cases hn : i < n
  · rw [List.getD_eq_getElem _ _ (by simpa using hn)]
    simp [bits]
  · rw [List.getD_eq_default _ _ (by simpa using hn), BitVec.getLsbD_of_ge v i (by omega)]

/-- A burst of at most `w` bits leaves its mark on the remainder. -/
theorem feed_burst (hp : poly.msb = true) {as bs : List Bool} (hlen : as.length ≤ w)
    (hab : as.length = bs.length) {c : BitVec w} (h : feed poly c as = feed poly c bs) :
    as = bs := by
  rw [feed_eq_iterate poly c as hlen, feed_eq_iterate poly c bs (by omega), hab] at h
  have := (shift_injective poly hp).iterate _ h
  exact word_injective hlen hab ((BitVec.xor_right_inj c).mp this)

end ReflectedCrc
