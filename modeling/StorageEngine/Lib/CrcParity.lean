import StorageEngine.Lib.ReflectedCrc

/-! Parity and cyclic redundancy checks.  When the polynomial has an odd number of bits set, a shift
keeps the parity of the remainder, so the parity of the remainder is that of all input bits: inputs
that differ in an odd number of bits have different remainders, however far apart the bits are. -/

namespace ReflectedCrc

/-- Whether an odd number of bits is set. -/
def parity (bs : List Bool) : Bool := bs.foldr xor false

@[simp] theorem parity_nil : parity [] = false := rfl

@[simp] theorem parity_cons (b : Bool) (bs : List Bool) : parity (b :: bs) = (b ^^ parity bs) := rfl

@[simp] theorem parity_append (as bs : List Bool) :
    parity (as ++ bs) = (parity as ^^ parity bs) := by
  induction as with
  | nil => simp
  | cons a as ih => simp [ih]

theorem parity_map_xor {ι : Type} (f g : ι → Bool) (is : List ι) :
    parity (is.map fun i => f i ^^ g i) = (parity (is.map f) ^^ parity (is.map g)) := by
  induction is with
  | nil => rfl
  | cons i is ih =>
    simp only [List.map_cons, parity_cons, ih]
    cases f i <;> cases g i <;> simp

/-- The number of places in which two lists of bits differ. -/
def distance (as bs : List Bool) : Nat := (as.zip bs).countP fun p => p.1 != p.2

theorem odd_distance_iff {as bs : List Bool} (h : as.length = bs.length) :
    distance as bs % 2 = 1 ↔ parity as ≠ parity bs := by
  induction as generalizing bs with
  | nil =>
    obtain rfl : bs = [] := List.length_eq_zero_iff.mp h.symm
    simp [distance]
  | cons a as ih =>
    obtain ⟨b, bs, rfl⟩ := List.exists_cons_of_length_pos (l := bs) (by simp at h; omega)
    have ih := @ih bs (by simpa using h)
    simp only [distance, List.zip_cons_cons, List.countP_cons, parity_cons] at ih ⊢
    cases a <;> cases b <;> cases hp : parity as <;> cases hq : parity bs <;> simp_all <;> omega

variable {w : Nat}

theorem parity_bits_xor (a b : BitVec w) :
    parity (bits (a ^^^ b)) = (parity (bits a) ^^ parity (bits b)) := by
  have hbits : (a ^^^ b).getLsbD = fun i => a.getLsbD i ^^ b.getLsbD i := by
    funext i
    exact BitVec.getLsbD_xor
  rw [bits, hbits, parity_map_xor]
  rfl

/-- The low bit first, and the others moved down. -/
theorem bits_succ (c : BitVec (w + 1)) :
    bits c = c.getLsbD 0 :: (List.range w).map fun i => c.getLsbD (i + 1) := by
  rw [bits, List.range_succ_eq_map, List.map_cons, List.map_map]
  rfl

theorem parity_bits_ushiftRight_one (c : BitVec w) :
    parity (bits (c >>> 1)) = (parity (bits c) ^^ c.getLsbD 0) := by
  cases w with
  | zero => simp [bits]
  | succ w =>
    have hmoved : bits (c >>> 1) = ((List.range w).map fun i => c.getLsbD (i + 1)) ++ [false] := by
      rw [bits, List.range_succ, List.map_append]
      simp [Nat.add_comm 1]
    rw [hmoved, bits_succ, parity_append, parity_cons]
    cases c.getLsbD 0 <;> simp

theorem parity_bits_unit (hw : 0 < w) (b : Bool) : parity (bits (unit w b)) = b := by
  cases w with
  | zero => contradiction
  | succ w =>
    have hzero : parity ((List.range w).map fun i => (unit (w + 1) b).getLsbD (i + 1)) = false := by
      generalize List.range w = is
      induction is with
      | nil => rfl
      | cons i is ih =>
        rw [List.map_cons, parity_cons, ih, getLsbD_unit]
        simp
    rw [bits_succ, parity_cons, hzero, getLsbD_unit]
    simp

variable {poly : BitVec w}

theorem parity_shift (hpoly : parity (bits poly) = true) (c : BitVec w) :
    parity (bits (shift poly c)) = parity (bits c) := by
  unfold shift
  cases hlow : c.getLsbD 0 with
  | false => simp [parity_bits_ushiftRight_one, hlow]
  | true => simp [parity_bits_xor, parity_bits_ushiftRight_one, hlow, hpoly]

theorem parity_feed (hw : 0 < w) (hpoly : parity (bits poly) = true) (c : BitVec w)
    (bs : List Bool) : parity (bits (feed poly c bs)) = (parity (bits c) ^^ parity bs) := by
  induction bs generalizing c with
  | nil => simp
  | cons b bs ih =>
    rw [feed_cons, ih, parity_shift hpoly, parity_bits_xor, parity_bits_unit hw, parity_cons,
      Bool.xor_assoc]

end ReflectedCrc
