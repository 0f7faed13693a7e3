import StorageEngine.Common
import StorageEngine.Lib.ReflectedCrc

/-! The CRC-32C of the log, `wal.cc`: the table-driven loop, the loop over the processor's CRC
instructions, and `crc32C`, which chooses between them.  All of them feed the bits of the bytes, in
order, to the reflected CRC with polynomial `0x82f63b78`, so the results about that CRC hold for the
checksum that the log stores. -/

namespace StorageEngine.Wal

open ReflectedCrc (feed shift bits)

/-- One round of the inner loop of `makeCrc32cTable`. -/
def crc32cRound (crc : BitVec 32) : BitVec 32 :=
  let mask := 0#32 - (crc &&& 1#32)
  (crc >>> 1) ^^^ (0x82f63b78#32 &&& mask)

def makeCrc32cTable : List (BitVec 32) :=
  (List.range 256).map fun i => crc32cRound^[8] (BitVec.ofNat 32 i)

def kCrc32cTable : List (BitVec 32) := makeCrc32cTable

def extendCrc32cSoftware (crc : BitVec 32) (bytes : Bytes) : BitVec 32 :=
  bytes.foldl (fun crc byte =>
    let index := (crc ^^^ byte.setWidth 32) &&& 0xff#32
    (crc >>> 8) ^^^ kCrc32cTable.getD index.toNat 0#32) crc

/-! ### The processor's instructions -/

/-- The bits of `chunk`, lowest first, folded into `crc` one at a time. -/
def foldChunk {n : Nat} (crc : BitVec 32) (chunk : BitVec n) : BitVec 32 :=
  feed 0x82f63b78#32 crc (bits chunk)

def mmCrc32U8 (crc : BitVec 32) (chunk : BitVec 8) : BitVec 32 := foldChunk crc chunk

def mmCrc32U32 (crc : BitVec 32) (chunk : BitVec 32) : BitVec 32 := foldChunk crc chunk

/-- The instruction takes and returns the remainder in a register of 64 bits. -/
def mmCrc32U64 (crc : BitVec 64) (chunk : BitVec 64) : BitVec 64 :=
  (foldChunk (crc.setWidth 32) chunk).setWidth 64

/-- `while (size >= sizeof(uint64_t))`: the remainder and the bytes that are left. -/
def hardwareLoop64 (crc : BitVec 32) : Bytes → BitVec 32 × Bytes
  | b0 :: b1 :: b2 :: b3 :: b4 :: b5 :: b6 :: b7 :: rest =>
    let chunk := LittleEndian.word 64 [b0, b1, b2, b3, b4, b5, b6, b7]
    hardwareLoop64 ((mmCrc32U64 (crc.setWidth 64) chunk).setWidth 32) rest
  | rest => (crc, rest)

def hardwareLoop32 (crc : BitVec 32) : Bytes → BitVec 32 × Bytes
  | b0 :: b1 :: b2 :: b3 :: rest =>
    hardwareLoop32 (mmCrc32U32 crc (LittleEndian.word 32 [b0, b1, b2, b3])) rest
  | rest => (crc, rest)

def hardwareLoop8 (crc : BitVec 32) (bytes : Bytes) : BitVec 32 := bytes.foldl mmCrc32U8 crc

def extendCrc32cHardware (arch : Arch) (crc : BitVec 32) (bytes : Bytes) : BitVec 32 :=
  let after64 := if arch = .x86_64 then hardwareLoop64 crc bytes else (crc, bytes)
  let after32 := hardwareLoop32 after64.1 after64.2
  hardwareLoop8 after32.1 after32.2

def hasHardwareCrc32c (host : Host) : Bool := host.sse42

def crc32C (host : Host) (bytes : Bytes) : BitVec 32 :=
  let crc := 0xffffffff#32
  if host.arch ≠ .other ∧ hasHardwareCrc32c host then
    ~~~extendCrc32cHardware host.arch crc bytes
  else
    ~~~extendCrc32cSoftware crc bytes

/-! ### Every loop feeds the bits of its bytes -/

/-- The bits of a byte string in the order in which the CRC takes them. -/
def bitString (bytes : Bytes) : List Bool := bytes.flatMap bits

@[simp] theorem bitString_cons (b : Byte) (bs : Bytes) :
    bitString (b :: bs) = bits b ++ bitString bs := rfl

@[simp] theorem bitString_append (as bs : Bytes) :
    bitString (as ++ bs) = bitString as ++ bitString bs := by simp [bitString]

@[simp] theorem length_bitString (bs : Bytes) : (bitString bs).length = 8 * bs.length := by
  induction bs with
  | nil => rfl
  | cons b bs ih => simp [ih]; omega

theorem bitString_injective {as bs : Bytes} (hlen : as.length = bs.length)
    (h : bitString as = bitString bs) : as = bs := by
  induction as generalizing bs with
  | nil => exact (List.length_eq_zero_iff.mp hlen.symm).symm
  | cons a as ih =>
    obtain ⟨b, bs, rfl⟩ := List.exists_cons_of_length_eq_add_one hlen.symm
    obtain ⟨hhead, htail⟩ := List.append_inj h (by simp)
    rw [ReflectedCrc.bits_injective hhead, ih (by simpa using hlen) htail]

theorem crc32cRound_eq (crc : BitVec 32) : crc32cRound crc = shift 0x82f63b78#32 crc := by
  have hmask : 0#32 - (crc &&& 1#32) =
      if crc.getLsbD 0 then BitVec.allOnes 32 else 0#32 := by
    rw [BitVec.and_one_eq_setWidth_ofBool_getLsbD]
    cases crc.getLsbD 0 <;> rfl
  rw [crc32cRound, hmask, shift]
  split
  · rw [BitVec.and_allOnes]
  · simp

theorem kCrc32cTable_getD (i : BitVec 8) :
    kCrc32cTable.getD i.toNat 0#32 = (shift 0x82f63b78#32)^[8] (i.setWidth 32) := by
  have hround : crc32cRound = shift 0x82f63b78#32 := funext crc32cRound_eq
  have hlt : i.toNat < ((List.range 256).map fun i =>
      (shift 0x82f63b78#32)^[8] (BitVec.ofNat 32 i)).length := by
    simpa using i.isLt
  rw [kCrc32cTable, makeCrc32cTable, hround, List.getD_eq_getElem _ _ hlt, List.getElem_map,
    List.getElem_range, BitVec.ofNat_toNat]

theorem software_byte (crc : BitVec 32) (byte : Byte) :
    (crc >>> 8) ^^^ kCrc32cTable.getD ((crc ^^^ byte.setWidth 32) &&& 0xff#32).toNat 0#32 =
      feed 0x82f63b78#32 crc (bits byte) := by
  have hmask : (crc ^^^ byte.setWidth 32) &&& 0xff#32 =
      ((crc ^^^ byte.setWidth 32).setWidth 8).setWidth 32 := by
    rw [show 0xff#32 = (BitVec.allOnes 8).setWidth 32 by rfl]
    apply BitVec.eq_of_getLsbD_eq
    intro i hi
    simp only [BitVec.getLsbD_and, BitVec.getLsbD_setWidth, BitVec.getLsbD_allOnes, hi]
    by_cases h : i < 8 <;> simp [h]
  have hindex : ((crc ^^^ byte.setWidth 32) &&& 0xff#32).toNat =
      ((crc ^^^ byte.setWidth 32).setWidth 8).toNat := by
    rw [hmask, BitVec.toNat_setWidth_of_le (by decide)]
  have hhigh : (crc ^^^ byte.setWidth 32) >>> 8 = crc >>> 8 := by
    apply BitVec.eq_of_getLsbD_eq
    intro i _
    simp
  rw [hindex, kCrc32cTable_getD, ReflectedCrc.feed_eq_iterate _ _ _ (by simp),
    ReflectedCrc.word_bits, ReflectedCrc.length_bits,
    ReflectedCrc.iterate_shift_split _ 8 (crc ^^^ byte.setWidth 32), hhigh]

theorem extendCrc32cSoftware_eq_feed (crc : BitVec 32) (bytes : Bytes) :
    extendCrc32cSoftware crc bytes = feed 0x82f63b78#32 crc (bitString bytes) := by
  induction bytes generalizing crc with
  | nil => rfl
  | cons b bs ih =>
    rw [bitString_cons, ReflectedCrc.feed_append, ← software_byte, ← ih]
    rfl

/-- A word in memory feeds the same bits as its bytes one by one. -/
theorem bits_word (bs : Bytes) (n : Nat) (hn : n = 8 * bs.length) :
    bits (LittleEndian.word n bs) = bitString bs := by
  subst hn
  apply List.ext_getElem (by simp)
  intro i hi _
  have hlt : i < 8 * bs.length := by simpa using hi
  have hbyte : (bitString bs)[i]? = some ((bs.getD (i / 8) 0#8).getLsbD (i % 8)) := by
    clear hi
    induction bs generalizing i with
    | nil => simp at hlt
    | cons b bs ih =>
      rw [bitString_cons, List.getElem?_append]
      by_cases h : i < 8
      · rw [if_pos (by simpa using h), show i / 8 = 0 by omega, show i % 8 = i by omega]
        simp [bits, h]
      · rw [if_neg (by simpa using h), ReflectedCrc.length_bits,
          ih (i - 8) (by simp at hlt ⊢; omega) (by simp at hlt; omega),
          show i / 8 = (i - 8) / 8 + 1 by omega, show i % 8 = (i - 8) % 8 by omega,
          List.getD_cons_succ]
  have hbits : (bits (LittleEndian.word (8 * bs.length) bs))[i]? =
      some ((bs.getD (i / 8) 0#8).getLsbD (i % 8)) := by
    rw [bits, List.getElem?_map, List.getElem?_range hlt, Option.map_some,
      LittleEndian.getLsbD_word]
    simp [hlt]
  apply Option.some.inj
  rw [← List.getElem?_eq_getElem, ← List.getElem?_eq_getElem, hbits, hbyte]

theorem hardwareLoop64_feed (crc : BitVec 32) (bytes : Bytes) :
    feed 0x82f63b78#32 (hardwareLoop64 crc bytes).1 (bitString (hardwareLoop64 crc bytes).2) =
      feed 0x82f63b78#32 crc (bitString bytes) := by
  induction crc, bytes using hardwareLoop64.induct with
  | case1 crc b0 b1 b2 b3 b4 b5 b6 b7 rest chunk ih =>
    rw [hardwareLoop64, ih, show b0 :: b1 :: b2 :: b3 :: b4 :: b5 :: b6 :: b7 :: rest =
      [b0, b1, b2, b3, b4, b5, b6, b7] ++ rest by rfl, bitString_append,
      ReflectedCrc.feed_append, ← bits_word [b0, b1, b2, b3, b4, b5, b6, b7] 64 rfl]
    simp [mmCrc32U64, foldChunk, chunk]
  | case2 crc rest hshort => rw [hardwareLoop64.eq_2 _ _ hshort]

theorem hardwareLoop32_feed (crc : BitVec 32) (bytes : Bytes) :
    feed 0x82f63b78#32 (hardwareLoop32 crc bytes).1 (bitString (hardwareLoop32 crc bytes).2) =
      feed 0x82f63b78#32 crc (bitString bytes) := by
  induction crc, bytes using hardwareLoop32.induct with
  | case1 crc b0 b1 b2 b3 rest ih =>
    rw [hardwareLoop32, ih, show b0 :: b1 :: b2 :: b3 :: rest = [b0, b1, b2, b3] ++ rest by rfl,
      bitString_append, ReflectedCrc.feed_append, ← bits_word [b0, b1, b2, b3] 32 rfl]
    rfl
  | case2 crc rest hshort => rw [hardwareLoop32.eq_2 _ _ hshort]

theorem hardwareLoop8_feed (crc : BitVec 32) (bytes : Bytes) :
    hardwareLoop8 crc bytes = feed 0x82f63b78#32 crc (bitString bytes) := by
  induction bytes generalizing crc with
  | nil => rfl
  | cons b bs ih =>
    rw [bitString_cons, ReflectedCrc.feed_append]
    exact ih _

theorem extendCrc32cHardware_eq_feed (arch : Arch) (crc : BitVec 32) (bytes : Bytes) :
    extendCrc32cHardware arch crc bytes = feed 0x82f63b78#32 crc (bitString bytes) := by
  simp only [extendCrc32cHardware, hardwareLoop8_feed, hardwareLoop32_feed]
  split
  · exact hardwareLoop64_feed crc bytes
  · rfl

theorem crc32C_eq_feed (host : Host) (bytes : Bytes) :
    crc32C host bytes = ~~~feed 0x82f63b78#32 0xffffffff#32 (bitString bytes) := by
  simp only [crc32C, extendCrc32cHardware_eq_feed, extendCrc32cSoftware_eq_feed, ite_self]

/-- The loop over the processor's instructions, with the steps of 64 bits or without them, and the
loop over the table leave the same remainder: that of the bits taken one at a time. -/
theorem hardware_and_software_agree (arch : Arch) (crc : BitVec 32) (bytes : Bytes) :
    extendCrc32cHardware arch crc bytes = extendCrc32cSoftware crc bytes ∧
      extendCrc32cSoftware crc bytes = feed 0x82f63b78#32 crc (bitString bytes) := by
  have hsoftware := extendCrc32cSoftware_eq_feed crc bytes
  refine ⟨?_, hsoftware⟩
  rw [extendCrc32cHardware_eq_feed, hsoftware]

/-! ### What the checksum detects -/

theorem crc32C_window {host : Host} {before old new after : Bytes} (hlen : old.length = new.length)
    (hold : old.length ≤ 4)
    (h : crc32C host (before ++ old ++ after) = crc32C host (before ++ new ++ after)) :
    old = new := by
  have hp : (0x82f63b78#32).msb = true := by decide
  have hfeed := BitVec.not_inj.mp (by simpa only [crc32C_eq_feed] using h)
  simp only [bitString_append, ReflectedCrc.feed_append] at hfeed
  have hwindow := ReflectedCrc.feed_injective _ hp _ hfeed
  refine bitString_injective hlen (ReflectedCrc.feed_burst _ hp ?_ ?_ hwindow)
  · simp; omega
  · simp [hlen]

theorem take_eq_of_agree {xs ys : Bytes} {n : Nat} (h : ∀ j, j < n → xs[j]? = ys[j]?) :
    xs.take n = ys.take n := by
  apply List.ext_getElem?
  intro i
  rw [List.getElem?_take, List.getElem?_take]
  split
  · next hi => exact h i hi
  · rfl

theorem take_drop_eq_of_agree {xs ys : Bytes} {start n : Nat}
    (h : ∀ j, start ≤ j → j < start + n → xs[j]? = ys[j]?) :
    (xs.drop start).take n = (ys.drop start).take n := by
  apply take_eq_of_agree
  intro j hj
  rw [List.getElem?_drop, List.getElem?_drop, h _ (by omega) (by omega)]

/-- Byte strings of equal length and checksum that differ at most in four neighbouring bytes are
equal. -/
theorem eq_of_crc32C_eq {host : Host} {xs ys : Bytes} (start : Nat)
    (hlen : xs.length = ys.length) (h : ∀ j, xs[j]? ≠ ys[j]? → start ≤ j ∧ j < start + 4)
    (hcrc : crc32C host xs = crc32C host ys) : xs = ys := by
  have hagree : ∀ j, ¬(start ≤ j ∧ j < start + 4) → xs[j]? = ys[j]? := fun j hj =>
    not_not.mp fun hne => hj (h j hne)
  have hbefore : xs.take start = ys.take start :=
    take_eq_of_agree fun j hj => hagree j (by omega)
  have hafter : xs.drop (start + 4) = ys.drop (start + 4) := by
    apply List.ext_getElem?
    intro i
    rw [List.getElem?_drop, List.getElem?_drop, hagree _ (by omega)]
  have hsplit : ∀ zs : Bytes,
      zs = zs.take start ++ (zs.drop start).take 4 ++ zs.drop (start + 4) := by
    intro zs
    rw [← List.drop_drop, List.append_assoc, List.take_append_drop, List.take_append_drop]
  rw [hsplit xs, hsplit ys, hbefore, hafter] at hcrc
  have hwindow := crc32C_window (by simp [hlen]) (List.length_take_le _ _) hcrc
  rw [hsplit xs, hsplit ys, hbefore, hafter, hwindow]

end StorageEngine.Wal
