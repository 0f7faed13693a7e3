import StorageEngine.Lib.LittleEndian

/-! Statuses, the platform, and the fixed-width integers of `common.h`.  An integer of `w` bits is
appended, overwritten, and read back through a loop over its bytes, the lowest byte first; the
source has each loop once for `uint32_t` and once for `uint64_t`. -/

namespace StorageEngine

abbrev Byte := BitVec 8

/-- A `std::vector<std::byte>` or a `std::span` over one, and the bytes of a `std::string`. -/
abbrev Bytes := List Byte

inductive StatusCode where
  | kOk
  | kNotFound
  | kInvalidArgument
  | kIoError
  | kCorruption
  deriving DecidableEq, Repr

structure Status where
  code : StatusCode := .kOk
  message : String := ""
  deriving DecidableEq, Repr

namespace Status

def Ok : Status := {}

def notFound (message : String) : Status := ⟨.kNotFound, message⟩

def ioError (message : String) : Status := ⟨.kIoError, message⟩

def corruption (message : String) : Status := ⟨.kCorruption, message⟩

def ok (status : Status) : Bool := status.code == .kOk

@[simp] theorem ok_Ok : Ok.ok = true := rfl

@[simp] theorem ok_ioError (message : String) : (ioError message).ok = false := rfl

end Status

abbrev Result (α : Type) := Except Status α

/-- The architectures that the preprocessor of `wal.cc` tells apart. -/
inductive Arch where
  | x86_64
  | i386
  | other
  deriving DecidableEq, Repr

/-- What the platform supplies: the processor, `std::hash<std::string_view>`, and the text that
`strerror` has for an error number. -/
structure Host where
  arch : Arch
  sse42 : Bool
  hash : Bytes → Nat
  strerror : Int → String

def Host.sample : Host where
  arch := .x86_64
  sse42 := true
  hash := List.length
  strerror _ := "Input/output error"

def errnoMessage (host : Host) (operation : String) (errno : Int) : String :=
  operation ++ ": " ++ host.strerror errno

/-! ### Fixed-width integers -/

section Fixed

variable {w : Nat}

def fixedByte (value : BitVec w) (i : Nat) : Byte :=
  ((value >>> (i * 8)) &&& 0xff#w).setWidth 8

def appendFixedLE (out : Bytes) (value : BitVec w) : Bytes :=
  (List.range (w / 8)).foldl (fun out i => out ++ [fixedByte value i]) out

def writeFixedLE (out : Bytes) (offset : Nat) (value : BitVec w) : Bytes :=
  (List.range (w / 8)).foldl (fun out i => out.set (offset + i) (fixedByte value i)) out

/-- The value at `offset` and the offset past it, or `none` when the bytes end before. -/
def readFixedLE (w : Nat) (bytes : Bytes) (offset : Nat) : Option (BitVec w × Nat) :=
  if offset + w / 8 > bytes.length then
    none
  else
    some ((List.range (w / 8)).foldl
      (fun value i => value ||| ((bytes.getD (offset + i) 0#8).setWidth w <<< (i * 8))) 0#w,
      offset + w / 8)

end Fixed

def appendFixed32LE (out : Bytes) (value : BitVec 32) : Bytes := appendFixedLE out value

def appendFixed64LE (out : Bytes) (value : BitVec 64) : Bytes := appendFixedLE out value

def writeFixed32LE (out : Bytes) (offset : Nat) (value : BitVec 32) : Bytes :=
  writeFixedLE out offset value

def writeFixed64LE (out : Bytes) (offset : Nat) (value : BitVec 64) : Bytes :=
  writeFixedLE out offset value

def readFixed32LE (bytes : Bytes) (offset : Nat) : Option (BitVec 32 × Nat) :=
  readFixedLE 32 bytes offset

def readFixed64LE (bytes : Bytes) (offset : Nat) : Option (BitVec 64 × Nat) :=
  readFixedLE 64 bytes offset

/-! ### The loops in terms of whole words -/

section Words

variable {w : Nat}

theorem fixedByte_eq (hw : 8 ≤ w) (value : BitVec w) (i : Nat) :
    fixedByte value i = value.extractLsb' (8 * i) 8 := by
  apply BitVec.eq_of_getLsbD_eq
  intro j hj
  have hmask : (0xff#w).getLsbD j = true := by
    rw [BitVec.getLsbD_ofNat, show (0xff : Nat) = 2 ^ 8 - 1 by rfl, Nat.testBit_two_pow_sub_one]
    simp [hj, show j < w by omega]
  rw [fixedByte, BitVec.getLsbD_setWidth, BitVec.getLsbD_and, BitVec.getLsbD_ushiftRight, hmask,
    BitVec.getLsbD_extractLsb', Nat.mul_comm i 8]
  simp

theorem appendFixedLE_eq (hw : 8 ≤ w) (out : Bytes) (value : BitVec w) :
    appendFixedLE out value = out ++ LittleEndian.bytes (w / 8) value := by
  unfold appendFixedLE
  induction w / 8 with
  | zero => simp [LittleEndian.bytes]
  | succ n ih =>
    rw [List.range_succ, List.foldl_append, ih, LittleEndian.bytes_succ, ← List.append_assoc,
      ← fixedByte_eq hw]
    rfl

theorem writeFixedLE_eq (hw : 8 ≤ w) (out : Bytes) (offset : Nat) (value : BitVec w)
    (hlen : offset + w / 8 ≤ out.length) :
    writeFixedLE out offset value =
      out.take offset ++ LittleEndian.bytes (w / 8) value ++ out.drop (offset + w / 8) := by
  unfold writeFixedLE
  generalize w / 8 = n at hlen
  induction n with
  | zero => simp [LittleEndian.bytes]
  | succ n ih =>
    rw [List.range_succ, List.foldl_append, ih (by omega), List.foldl_cons, List.foldl_nil,
      fixedByte_eq hw, LittleEndian.bytes_succ,
      List.drop_eq_getElem_cons (show offset + n < out.length by omega)]
    have hpre : (out.take offset ++ LittleEndian.bytes n value).length = offset + n := by
      simp; omega
    rw [List.set_append_right _ _ (by omega), hpre, Nat.sub_self, List.set_cons_zero]
    simp [Nat.add_assoc]

theorem readFixedLE_eq (bytes : Bytes) (offset : Nat) :
    readFixedLE w bytes offset =
      if offset + w / 8 ≤ bytes.length then
        some (LittleEndian.word w ((bytes.drop offset).take (w / 8)), offset + w / 8)
      else none := by
  have hloop : ∀ n, (List.range n).foldl
      (fun value i => value ||| ((bytes.getD (offset + i) 0#8).setWidth w <<< (i * 8))) 0#w =
        LittleEndian.word w ((bytes.drop offset).take n) := by
    intro n
    induction n with
    | zero => simp [LittleEndian.word]
    | succ n ih =>
      rw [List.range_succ, List.foldl_append, ih, List.foldl_cons, List.foldl_nil]
      apply BitVec.eq_of_getLsbD_eq
      intro j hj
      simp only [BitVec.getLsbD_or, BitVec.getLsbD_shiftLeft, BitVec.getLsbD_setWidth,
        LittleEndian.getLsbD_word, List.getD_eq_getElem?_getD, List.getElem?_take,
        List.getElem?_drop, hj, decide_true, Bool.true_and]
      -- Bit `j` belongs to a byte before `n`, to byte `n`, or to one past it.
      rcases Nat.lt_trichotomy (j / 8) n with h | h | h
      · simp [h, show j / 8 < n + 1 by omega, show j < n * 8 by omega]
      · subst h
        simp [show ¬j < j / 8 * 8 by omega, show j - j / 8 * 8 = j % 8 by omega,
          show j % 8 < w by omega]
      · simp [show ¬j / 8 < n by omega, show ¬j / 8 < n + 1 by omega,
          BitVec.getLsbD_of_ge _ (j - n * 8) (show 8 ≤ j - n * 8 by omega)]
  unfold readFixedLE
  rw [hloop]
  by_cases h : offset + w / 8 ≤ bytes.length
  · simp [h]
  · simp [h, Nat.lt_of_not_le h]

theorem readFixedLE_append (hw : w ≤ 8 * (w / 8)) (value : BitVec w) (before after : Bytes)
    (offset : Nat) (hoffset : before.length = offset) :
    readFixedLE w (before ++ LittleEndian.bytes (w / 8) value ++ after) offset =
      some (value, offset + w / 8) := by
  rw [readFixedLE_eq, if_pos (by simp; omega), List.append_assoc, List.drop_left' hoffset,
    List.take_left' (by simp), LittleEndian.word_bytes value hw]

end Words

end StorageEngine
