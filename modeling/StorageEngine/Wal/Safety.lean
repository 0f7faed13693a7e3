import StorageEngine.Lib.CheckedSpan
import StorageEngine.Wal.Grammar

/-! The decoder on arbitrary bytes.  `decodeLogChecked` is `DecodeLog` with a `size_t` of 64 bits,
in which every index, every subspan and copy, and every sum of offsets is checked, and every loop
has a number of turns.  On a span shorter than `2^63` bytes nothing of that faults, so the result is
that of `decodeLog`; and what was decoded fits into the bytes that were accepted. -/

namespace StorageEngine.Wal

open CheckedSpan (Checked add index slice add_eq index_eq slice_eq ok_bind)
open FrameScan (Frame)

/-! ### The reads -/

def readFixedChecked (w : Nat) (bytes : Bytes) (offset : Nat) :
    Checked (Option (BitVec w × Nat)) := do
  let stop ← add 64 offset (w / 8)
  if stop > bytes.length then
    .ok none
  else
    let value ← (List.range (w / 8)).foldlM (fun value i => do
      let position ← add 64 offset i
      let byte ← index bytes position
      .ok (value ||| (byte.setWidth w <<< (i * 8)))) 0#w
    let offset ← add 64 offset (w / 8)
    .ok (some (value, offset))

theorem readFixedChecked_eq {w : Nat} (hw : w ≤ 64) {bytes : Bytes} (hlen : bytes.length < 2 ^ 63)
    {offset : Nat} (hoffset : offset ≤ bytes.length) :
    readFixedChecked w bytes offset = .ok (readFixedLE w bytes offset) := by
  have hstop : add 64 offset (w / 8) = .ok (offset + w / 8) := add_eq (by omega)
  rw [readFixedChecked, readFixedLE, hstop, ok_bind]
  split
  · rfl
  next hinside =>
  have hloop : ∀ i ∈ List.range (w / 8), ∀ value : BitVec w,
      (do
        let position ← add 64 offset i
        let byte ← index bytes position
        .ok (value ||| (byte.setWidth w <<< (i * 8)))) =
      (.ok (value ||| ((bytes.getD (offset + i) 0#8).setWidth w <<< (i * 8))) :
        Checked (BitVec w)) := by
    intro i hi value
    rw [List.mem_range] at hi
    rw [add_eq (by omega), ok_bind, index_eq (by omega) 0#8, ok_bind]
  rw [CheckedSpan.foldlM_eq hloop, ok_bind, ok_bind]

theorem readFixedLE_some {w : Nat} {bytes : Bytes} {offset next : Nat} {value : BitVec w}
    (h : readFixedLE w bytes offset = some (value, next)) :
    next = offset + w / 8 ∧ next ≤ bytes.length := by
  rw [readFixedLE] at h
  split at h
  · contradiction
  next hinside =>
  obtain ⟨-, rfl⟩ := Prod.mk.inj (Option.some.inj h)
  exact ⟨rfl, Nat.le_of_not_lt hinside⟩

/-! ### The decoder -/

def decodeEntryChecked (payload : Bytes) (payloadOffset : Nat) (batch : WriteBatch) :
    Checked (Result (WriteBatch × Nat)) := do
  if payloadOffset ≥ payload.length then
    .ok (.error (.corruption "truncated WAL batch entry"))
  else
    let typeByte ← index payload payloadOffset
    let payloadOffset ← add 64 payloadOffset 1
    match ← readFixedChecked 32 payload payloadOffset with
    | none => .ok (.error (.corruption "invalid WAL batch entry"))
    | some (keySize, payloadOffset) =>
    match ← readFixedChecked 32 payload payloadOffset with
    | none => .ok (.error (.corruption "invalid WAL batch entry"))
    | some (valueSize, payloadOffset) =>
      let keyStop ← add 64 payloadOffset keySize.toNat
      let valueStop ← add 64 keyStop valueSize.toNat
      if valueStop > payload.length then
        .ok (.error (.corruption "truncated WAL batch payload"))
      else
        let key ← slice payload payloadOffset keySize.toNat
        let payloadOffset ← add 64 payloadOffset keySize.toNat
        let value ← slice payload payloadOffset valueSize.toNat
        let payloadOffset ← add 64 payloadOffset valueSize.toNat
        if typeByte = EntryType.kPut.toByte then
          .ok (.ok (batch.put key value, payloadOffset))
        else if typeByte = EntryType.kDelete.toByte then
          .ok (.ok (batch.delete key, payloadOffset))
        else
          .ok (.error (.corruption "unknown WAL entry type"))

/-- The loop over the entries, with the turns that it may take and those that are left. -/
def decodeEntriesChecked (payload : Bytes) :
    Nat → Nat → Nat → WriteBatch → Checked (Result WriteBatch)
  | _, 0, _, batch => .ok (.ok batch)
  | 0, _ + 1, _, _ => .error .outOfTurns
  | turns + 1, left + 1, payloadOffset, batch => do
    match ← decodeEntryChecked payload payloadOffset batch with
    | .error status => .ok (.error status)
    | .ok (batch, payloadOffset) => decodeEntriesChecked payload turns left payloadOffset batch

def decodeBatchChecked (turns : Nat) (payload : Bytes) : Checked (Result DecodedBatch) := do
  match ← readFixedChecked 64 payload 0 with
  | none => .ok (.error (.corruption "invalid WAL batch header"))
  | some (baseSequence, payloadOffset) =>
  match ← readFixedChecked 32 payload payloadOffset with
  | none => .ok (.error (.corruption "invalid WAL batch header"))
  | some (entryCount, payloadOffset) =>
    match ← decodeEntriesChecked payload turns entryCount.toNat payloadOffset .new with
    | .error status => .ok (.error status)
    | .ok batch => .ok (.ok ⟨baseSequence, batch⟩)

def decodeRecordChecked (host : Host) (turns : Nat) (bytes : Bytes) (offset : Nat) :
    Checked (Frame Status DecodedBatch) := do
  let recordOffset := offset
  match ← readFixedChecked 32 bytes offset with
  | none => .ok .stop
  | some (expectedCrc, offset) =>
  match ← readFixedChecked 32 bytes offset with
  | none => .ok .stop
  | some (length, offset) =>
    if offset ≥ bytes.length then
      .ok .stop
    else
      let type ← index bytes offset
      let offset ← add 64 offset 1
      let stop ← add 64 offset length.toNat
      if stop > bytes.length then
        .ok .stop
      else if type ≠ kBatchRecord then
        .ok (.fail (.corruption "unknown WAL record type"))
      else
        let payload ← slice bytes offset length.toNat
        if crc32C host payload ≠ expectedCrc then
          let payloadStart ← add 64 recordOffset 9
          let stop ← add 64 payloadStart length.toNat
          if stop ≥ bytes.length then
            .ok .stop
          else
            .ok (.fail (.corruption "WAL checksum mismatch"))
        else
          match ← decodeBatchChecked turns payload with
          | .error status => .ok (.fail status)
          | .ok decoded =>
            let offset ← add 64 offset length.toNat
            .ok (.next decoded offset)

/-- The loop over the records, with the turns that are left. -/
def decodeLoopChecked (host : Host) (entryTurns : Nat) (bytes : Bytes) :
    Nat → Nat → DecodeResult → Checked (Result DecodeResult)
  | 0, _, _ => .error .outOfTurns
  | turns + 1, offset, result => do
    if offset < bytes.length then
      match ← decodeRecordChecked host entryTurns bytes offset with
      | .stop => .ok (.ok result)
      | .fail status => .ok (.error status)
      | .next decoded offset =>
        decodeLoopChecked host entryTurns bytes turns offset
          { batches := result.batches ++ [decoded], validBytes := offset }
    else
      .ok (.ok result)

/-- `DecodeLog` with all checks, in which each loop may take `turns` turns. -/
def decodeLogChecked (host : Host) (turns : Nat) (bytes : Bytes) : Checked (Result DecodeResult) :=
  decodeLoopChecked host turns bytes turns 0 {}

/-! ### Nothing faults -/

section Safe

variable {payload : Bytes} (hlen : payload.length < 2 ^ 63)

include hlen

theorem decodeEntryChecked_eq (offset : Nat) (batch : WriteBatch) :
    decodeEntryChecked payload offset batch = .ok (decodeEntry payload offset batch) := by
  rw [decodeEntryChecked, decodeEntry]
  split
  · rfl
  next hinside =>
  rw [index_eq (by omega) 0#8, ok_bind, add_eq (by omega), ok_bind,
    readFixedChecked_eq (by decide) hlen (by omega), ok_bind]
  simp only [readFixed32LE]
  cases hkey : readFixedLE 32 payload (offset + 1) with
  | none => rfl
  | some key =>
    obtain ⟨keySize, next⟩ := key
    obtain ⟨-, hnext⟩ := readFixedLE_some hkey
    simp only
    rw [readFixedChecked_eq (by decide) hlen hnext, ok_bind]
    cases hvalue : readFixedLE 32 payload next with
    | none => rfl
    | some value =>
      obtain ⟨valueSize, next⟩ := value
      obtain ⟨-, hnext⟩ := readFixedLE_some hvalue
      have hkeySize := keySize.isLt
      have hvalueSize := valueSize.isLt
      simp only
      rw [add_eq (by omega), ok_bind, add_eq (by omega), ok_bind]
      split
      · rfl
      next hfits =>
      rw [slice_eq (by omega), ok_bind, ok_bind, slice_eq (by omega), ok_bind, add_eq (by omega),
        ok_bind]
      split
      · rfl
      split
      · rfl
      · rfl

/-- An entry takes at least its header, so that the loop ends before it has turned more often than
there are bytes. -/
theorem decodeEntriesChecked_eq (turns left offset : Nat) (batch : WriteBatch)
    (hturns : payload.length - offset < turns) :
    decodeEntriesChecked payload turns left offset batch =
      .ok (decodeEntries payload left offset batch) := by
  induction turns generalizing left offset batch with
  | zero => contradiction
  | succ turns ih =>
    cases left with
    | zero => rfl
    | succ left =>
      rw [decodeEntriesChecked, decodeEntries, decodeEntryChecked_eq hlen, ok_bind]
      cases hentry : decodeEntry payload offset batch with
      | error status => rfl
      | ok after =>
        obtain ⟨after, next⟩ := after
        obtain ⟨rfl, entry, -, hat⟩ := decodeEntry_ok hentry
        have hinside := hat.inside
        unfold storedEntrySize at hinside
        exact ih left _ after (by unfold storedEntrySize; omega)

theorem decodeBatchChecked_eq {turns : Nat} (hturns : payload.length < turns) :
    decodeBatchChecked turns payload = .ok (decodeBatch payload) := by
  rw [decodeBatchChecked, decodeBatch, readFixedChecked_eq (by decide) hlen (Nat.zero_le _),
    ok_bind]
  simp only [readFixed64LE, readFixed32LE]
  cases hbase : readFixedLE 64 payload 0 with
  | none => rfl
  | some base =>
    obtain ⟨baseSequence, next⟩ := base
    obtain ⟨-, hnext⟩ := readFixedLE_some hbase
    simp only
    rw [readFixedChecked_eq (by decide) hlen hnext, ok_bind]
    cases hcount : readFixedLE 32 payload next with
    | none => rfl
    | some count =>
      obtain ⟨entryCount, next⟩ := count
      simp only
      rw [decodeEntriesChecked_eq hlen _ _ _ _ (by omega), ok_bind]
      cases decodeEntries payload entryCount.toNat next .new <;> rfl

end Safe

section SafeLog

variable (host : Host) {bytes : Bytes} (hlen : bytes.length < 2 ^ 63)

include hlen

theorem decodeRecordChecked_eq {turns offset : Nat} (hturns : bytes.length < turns)
    (hoffset : offset ≤ bytes.length) :
    decodeRecordChecked host turns bytes offset = .ok (decodeRecord host bytes offset) := by
  rw [decodeRecordChecked, decodeRecord, readFixedChecked_eq (by decide) hlen hoffset, ok_bind]
  simp only [readFixed32LE]
  cases hcrc : readFixedLE 32 bytes offset with
  | none => rfl
  | some crc =>
    obtain ⟨expectedCrc, next⟩ := crc
    obtain ⟨-, hnext⟩ := readFixedLE_some hcrc
    simp only
    rw [readFixedChecked_eq (by decide) hlen hnext, ok_bind]
    cases hlength : readFixedLE 32 bytes next with
    | none => rfl
    | some field =>
      obtain ⟨length, next⟩ := field
      have hfield := length.isLt
      simp only
      split
      · rfl
      rw [index_eq (by omega) 0#8, ok_bind, add_eq (by omega), ok_bind, add_eq (by omega), ok_bind]
      split
      · rfl
      split
      · rfl
      rw [slice_eq (by omega), ok_bind]
      split
      · rw [add_eq (by omega), ok_bind, add_eq (by omega), ok_bind]
        split <;> rfl
      · have hpayload : ((bytes.drop (next + 1)).take length.toNat).length ≤ bytes.length := by
          rw [List.length_take, List.length_drop]
          omega
        rw [decodeBatchChecked_eq (by omega) (by omega), ok_bind]
        cases decodeBatch ((bytes.drop (next + 1)).take length.toNat) <;> rfl

/-- A record takes at least its header, so that the loop ends before it has turned more often than
there are bytes. -/
theorem decodeLoopChecked_eq {entryTurns : Nat} (hentryTurns : bytes.length < entryTurns)
    (turns offset : Nat) (result : DecodeResult) (hoffset : offset ≤ bytes.length)
    (hturns : bytes.length - offset < turns) :
    decodeLoopChecked host entryTurns bytes turns offset result =
      .ok (decodeLoop host bytes offset result) := by
  induction turns generalizing offset result with
  | zero => contradiction
  | succ turns ih =>
    rw [decodeLoopChecked, decodeLoop_eq]
    split
    · rw [decodeRecordChecked_eq host hlen hentryTurns hoffset, ok_bind]
      cases hrecord : decodeRecord host bytes offset with
      | stop => rfl
      | fail status => rfl
      | next decoded next =>
        obtain ⟨hnext, hle, -⟩ := decodeRecord_next hrecord
        exact ih next _ hle (by omega)
    · rfl

end SafeLog

/-! ### What was decoded fits into what was accepted -/

/-- The headers of a record and of its entries, and the keys and values that were decoded. -/
def DecodedBatch.footprint (decoded : DecodedBatch) : Nat :=
  21 + (decoded.batch.entries.map fun entry => 9 + entry.key.length + entry.value.length).sum

theorem DecodedBatch.footprint_eq (host : Host) :
    footprint = fun decoded => (decoded.group.encode host).length := by
  funext decoded
  rw [Group.length_encode, Group.length_payload, entries_group, List.length_flatMap, footprint]
  simp only [length_entryBytes, kEntryHeaderSize, Nat.reduceAdd]
  omega

theorem footprints_le {host : Host} {bytes : Bytes} {result : DecodeResult}
    (h : decodeLog host bytes = .ok result) :
    (result.batches.map DecodedBatch.footprint).sum ≤ result.validBytes := by
  obtain ⟨payloads, hlog, -, hbatches⟩ := accepted_frames h
  have hle := length_flatten_le (length_encode_le_frame host hbatches)
  rw [← List.flatMap_def, ← List.flatMap_def, ← hlog, List.length_take,
    Nat.min_eq_left (validBytes_le h), List.length_flatMap] at hle
  rw [DecodedBatch.footprint_eq host]
  exact hle

/-- On every span shorter than `2^63` bytes the decoder ends, each of its loops within as many turns
as there are bytes and one more, reads and copies only what its spans hold, and adds offsets without
a wrap; and the records, entries, keys, and values of a result lie in the bytes it accepted. -/
theorem decodeLog_safe (host : Host) (bytes : Bytes) (hlen : bytes.length < 2 ^ 63) (turns : Nat)
    (hturns : bytes.length < turns) :
    decodeLogChecked host turns bytes = .ok (decodeLog host bytes) ∧
      ∀ result, decodeLog host bytes = .ok result →
        result.validBytes ≤ bytes.length ∧
          (result.batches.map DecodedBatch.footprint).sum ≤ result.validBytes :=
  ⟨decodeLoopChecked_eq host hlen hturns turns 0 {} (Nat.zero_le _) (by omega),
    fun _ h => ⟨validBytes_le h, footprints_le h⟩⟩

/-- A record that announces `2^32 - 1` entries, behind a good one. -/
theorem decodeLog_safe_forged_count :
    let bytes := (Group.put 1 [97] [49]).encode .sample ++
      frame .sample (payloadOf 2 0xffffffff#32 [])
    bytes.length = 53 ∧ decodeLogChecked .sample 54 bytes = .ok (decodeLog .sample bytes) ∧
      decodeLog .sample bytes = .error (.corruption "truncated WAL batch entry") :=
  ⟨by decide +kernel, (decodeLog_safe .sample _ (by decide +kernel) 54 (by decide +kernel)).1,
    by decide +kernel⟩

end StorageEngine.Wal
