import Mathlib.Data.BitVec
import Mathlib.Data.Nat.ModEq
import Mathlib.Logic.Function.Basic
import Mathlib.Tactic.Common

/-! Rings between two counters.  The producer and the consumer count up and never reduce; the slot
of a counter is its low bits.  `contents` is the queue that the ring holds, and the operations of
the two sides are those of a queue on it, whatever the counters are and however often they wrap. -/

namespace CountedRing

/-- A ring of `entries` slots with counters of `w` bits. -/
structure Ring (w : Nat) (α : Type) where
  head : BitVec w
  tail : BitVec w
  mask : BitVec w
  entries : BitVec w
  slots : BitVec w → α

namespace Ring

variable {w : Nat} {α : Type} (r : Ring w α)

def count : Nat := (r.tail - r.head).toNat

/-- The slot that is `i` places behind the head. -/
def slotAt (i : Nat) : BitVec w := (r.head + BitVec.ofNat w i) &&& r.mask

def contents : List α := (List.range r.count).map fun i => r.slots (r.slotAt i)

/-- The size is a power of two, and at most that many slots are taken. -/
structure WellFormed : Prop where
  sized : ∃ k < w, r.entries.toNat = 2 ^ k ∧ r.mask.toNat = 2 ^ k - 1
  room : r.count ≤ r.entries.toNat

@[simp] theorem length_contents : r.contents.length = r.count := by simp [contents]

theorem count_eq_zero_iff : r.count = 0 ↔ r.head = r.tail := by
  rw [count, ← BitVec.toNat_zero (w := w), BitVec.toNat_inj]
  constructor
  · intro h
    have := BitVec.sub_add_cancel r.tail r.head
    rw [h, BitVec.zero_add] at this
    exact this
  · intro h
    rw [h, BitVec.sub_self]

theorem contents_eq_nil_iff : r.contents = [] ↔ r.head = r.tail := by
  rw [← List.length_eq_zero_iff, length_contents, count_eq_zero_iff]

theorem head_add_count : r.head + BitVec.ofNat w r.count = r.tail := by
  rw [count, BitVec.ofNat_toNat, BitVec.setWidth_eq, BitVec.add_comm, BitVec.sub_add_cancel]

theorem slotAt_zero : r.slotAt 0 = r.head &&& r.mask := by simp [slotAt]

theorem slotAt_count : r.slotAt r.count = r.tail &&& r.mask := by
  rw [slotAt, head_add_count]

end Ring

variable {w : Nat} {α : Type} {r : Ring w α}

/-- Slots less than the size apart are different. -/
theorem slotAt_injective (h : r.WellFormed) {i j : Nat} (hi : i < r.entries.toNat)
    (hj : j < r.entries.toNat) (heq : r.slotAt i = r.slotAt j) : i = j := by
  obtain ⟨k, hk, hentries, hmask⟩ := h.sized
  have hslot : ∀ i, (r.slotAt i).toNat = (r.head.toNat + i) % 2 ^ k := by
    intro i
    rw [Ring.slotAt, BitVec.toNat_and, hmask, Nat.and_two_pow_sub_one_eq_mod, BitVec.toNat_add,
      BitVec.toNat_ofNat, Nat.add_mod_mod, Nat.mod_mod_of_dvd _ (Nat.pow_dvd_pow 2 hk.le)]
  have hmod : (r.head.toNat + i) % 2 ^ k = (r.head.toNat + j) % 2 ^ k := by
    rw [← hslot, ← hslot, heq]
  have hij : i ≡ j [MOD 2 ^ k] := Nat.ModEq.add_left_cancel' _ hmod
  exact hij.eq_of_lt_of_lt (hentries ▸ hi) (hentries ▸ hj)

/-- The free slots behind the tail are none of those that are taken. -/
theorem slotAt_ne_behind (h : r.WellFormed) {i j : Nat} (hroom : r.count + j < r.entries.toNat)
    (hi : i < r.count) : r.slotAt i ≠ (r.tail + BitVec.ofNat w j) &&& r.mask := by
  intro heq
  have hbehind : (r.tail + BitVec.ofNat w j) &&& r.mask = r.slotAt (r.count + j) := by
    rw [Ring.slotAt, BitVec.ofNat_add, ← BitVec.add_assoc, Ring.head_add_count]
  have := slotAt_injective h (by omega) hroom (heq.trans hbehind)
  omega

theorem slotAt_ne_tail (h : r.WellFormed) (hroom : r.count < r.entries.toNat) {i : Nat}
    (hi : i < r.count) : r.slotAt i ≠ r.tail &&& r.mask := by
  have := slotAt_ne_behind (j := 0) h hroom hi
  rwa [BitVec.add_zero] at this

/-- The producer fills the slot at the tail and counts up. -/
theorem contents_of_push (h : r.WellFormed) (hroom : r.count < r.entries.toNat) {q : Ring w α}
    (hhead : q.head = r.head) (htail : q.tail = r.tail + 1#w) (hmask : q.mask = r.mask)
    (hentries : q.entries = r.entries)
    (hold : ∀ i < r.count, q.slots (r.slotAt i) = r.slots (r.slotAt i)) :
    q.WellFormed ∧ q.count = r.count + 1 ∧
      q.contents = r.contents ++ [q.slots (r.tail &&& r.mask)] := by
  have hcount : q.count = r.count + 1 := by
    have hlt := r.entries.isLt
    have hone : 1 < 2 ^ w := by
      obtain ⟨k, hk, -, -⟩ := h.sized
      exact Nat.one_lt_two_pow (by omega)
    have hsub := add_sub_right_comm r.tail 1#w r.head
    unfold Ring.count at hroom ⊢
    rw [hhead, htail, hsub, BitVec.toNat_add, BitVec.toNat_ofNat, Nat.mod_eq_of_lt hone,
      Nat.mod_eq_of_lt (by omega)]
  have hslot : ∀ i, q.slotAt i = r.slotAt i := fun i => by
    rw [Ring.slotAt, Ring.slotAt, hhead, hmask]
  refine ⟨⟨by rw [hentries, hmask]; exact h.sized, ?_⟩, hcount, ?_⟩
  · rw [hcount, hentries]
    exact hroom
  rw [Ring.contents, Ring.contents, hcount, List.range_succ, List.map_append]
  congr 1
  · apply List.map_congr_left
    intro i hi
    rw [hslot, hold i (List.mem_range.mp hi)]
  · rw [List.map_singleton, hslot, Ring.slotAt_count]

/-- The consumer counts up by `n`. -/
theorem contents_of_advance (h : r.WellFormed) {n : Nat} (hn : n ≤ r.count) {q : Ring w α}
    (hhead : q.head = r.head + BitVec.ofNat w n) (htail : q.tail = r.tail)
    (hmask : q.mask = r.mask) (hentries : q.entries = r.entries)
    (hslots : q.slots = r.slots) :
    q.WellFormed ∧ q.count = r.count - n ∧ q.contents = r.contents.drop n := by
  have hcount : q.count = r.count - n := by
    have hlt : r.count < 2 ^ w := (r.tail - r.head).isLt
    have hsub := sub_add_eq_sub_sub r.tail r.head (BitVec.ofNat w n)
    have hle : BitVec.ofNat w n ≤ r.tail - r.head := by
      rw [BitVec.le_def, BitVec.toNat_ofNat]
      exact (Nat.mod_le _ _).trans hn
    rw [Ring.count, hhead, htail, hsub, BitVec.toNat_sub_of_le hle, BitVec.toNat_ofNat,
      Nat.mod_eq_of_lt (by omega), Ring.count]
  have hslot : ∀ i, q.slotAt i = r.slotAt (n + i) := fun i => by
    rw [Ring.slotAt, Ring.slotAt, hhead, hmask, BitVec.ofNat_add, BitVec.add_assoc]
  refine ⟨⟨by rw [hentries, hmask]; exact h.sized, ?_⟩, hcount, ?_⟩
  · rw [hcount, hentries]
    exact (Nat.sub_le _ _).trans h.room
  · apply List.ext_getElem
    · simp [hcount]
    · intro i hi _
      simp [Ring.contents, hslot, hslots]

/-- The consumer takes the entry at the head. -/
theorem contents_of_take (h : r.WellFormed) (hne : r.head ≠ r.tail) {q : Ring w α}
    (hhead : q.head = r.head + 1#w) (htail : q.tail = r.tail) (hmask : q.mask = r.mask)
    (hentries : q.entries = r.entries) (hslots : q.slots = r.slots) :
    q.WellFormed ∧ r.contents = r.slots (r.head &&& r.mask) :: q.contents := by
  have hpos : 0 < r.count := Nat.pos_of_ne_zero (mt r.count_eq_zero_iff.mp hne)
  obtain ⟨hring, -, hcontents⟩ := contents_of_advance h hpos hhead htail hmask hentries hslots
  have hlen : 0 < r.contents.length := by rwa [Ring.length_contents]
  have hfirst : r.contents[0] = r.slots (r.head &&& r.mask) := by
    simp [Ring.contents, Ring.slotAt_zero]
  refine ⟨hring, ?_⟩
  rw [hcontents, ← hfirst, ← List.drop_eq_getElem_cons hlen, List.drop_zero]

end CountedRing
