import StorageEngine.Lib.FrameScan
import StorageEngine.Wal.Encode

/-! The log decoder of `wal.cc`.  `decodeLog` is the source's loop over absolute offsets.
`decodeRecord_eq` gives one turn of the loop in terms of the header fields of the rest of the log,
and `decodeLog_eq_scan` shows that the loop scans the log frame by frame. -/

namespace StorageEngine.Wal

open FrameScan (Frame Parser scan)

structure DecodedBatch where
  baseSequence : BitVec 64
  batch : WriteBatch
  deriving DecidableEq

structure DecodeResult where
  batches : List DecodedBatch := []
  validBytes : Nat := 0
  deriving DecidableEq

/-- One turn of the loop over the entries: the batch with the next entry, and the offset past
it. -/
def decodeEntry (payload : Bytes) (payloadOffset : Nat) (batch : WriteBatch) :
    Result (WriteBatch × Nat) :=
  if payloadOffset ≥ payload.length then
    .error (.corruption "truncated WAL batch entry")
  else
    let typeByte := payload.getD payloadOffset 0#8
    let payloadOffset := payloadOffset + 1
    match readFixed32LE payload payloadOffset with
    | none => .error (.corruption "invalid WAL batch entry")
    | some (keySize, payloadOffset) =>
    match readFixed32LE payload payloadOffset with
    | none => .error (.corruption "invalid WAL batch entry")
    | some (valueSize, payloadOffset) =>
      if payloadOffset + keySize.toNat + valueSize.toNat > payload.length then
        .error (.corruption "truncated WAL batch payload")
      else
        let key := (payload.drop payloadOffset).take keySize.toNat
        let payloadOffset := payloadOffset + keySize.toNat
        let value := (payload.drop payloadOffset).take valueSize.toNat
        let payloadOffset := payloadOffset + valueSize.toNat
        if typeByte = EntryType.kPut.toByte then
          .ok (batch.put key value, payloadOffset)
        else if typeByte = EntryType.kDelete.toByte then
          .ok (batch.delete key, payloadOffset)
        else
          .error (.corruption "unknown WAL entry type")

/-- `for (uint32_t i = 0; i < entryCount; ++i)`, with the turns that are left. -/
def decodeEntries (payload : Bytes) : Nat → Nat → WriteBatch → Result WriteBatch
  | 0, _, batch => .ok batch
  | left + 1, payloadOffset, batch =>
    match decodeEntry payload payloadOffset batch with
    | .error status => .error status
    | .ok (batch, payloadOffset) => decodeEntries payload left payloadOffset batch

def decodeBatch (payload : Bytes) : Result DecodedBatch :=
  match readFixed64LE payload 0 with
  | none => .error (.corruption "invalid WAL batch header")
  | some (baseSequence, payloadOffset) =>
  match readFixed32LE payload payloadOffset with
  | none => .error (.corruption "invalid WAL batch header")
  | some (entryCount, payloadOffset) =>
    match decodeEntries payload entryCount.toNat payloadOffset .new with
    | .error status => .error status
    | .ok batch => .ok ⟨baseSequence, batch⟩

/-- One turn of the loop over the records: `break`, an error, or a batch and the offset past its
record. -/
def decodeRecord (host : Host) (bytes : Bytes) (offset : Nat) : Frame Status DecodedBatch :=
  let recordOffset := offset
  match readFixed32LE bytes offset with
  | none => .stop
  | some (expectedCrc, offset) =>
  match readFixed32LE bytes offset with
  | none => .stop
  | some (length, offset) =>
    if offset ≥ bytes.length then
      .stop
    else
      let type := bytes.getD offset 0#8
      let offset := offset + 1
      if offset + length.toNat > bytes.length then
        .stop
      else if type ≠ kBatchRecord then
        .fail (.corruption "unknown WAL record type")
      else
        let payload := (bytes.drop offset).take length.toNat
        if crc32C host payload ≠ expectedCrc then
          if recordOffset + 9 + length.toNat ≥ bytes.length then
            .stop
          else
            .fail (.corruption "WAL checksum mismatch")
        else
          match decodeBatch payload with
          | .error status => .fail status
          | .ok decoded => .next decoded (offset + length.toNat)

/-! ### One record in terms of its header fields -/

/-- The checksum field of the record at the front of `rest`. -/
def storedCrc (rest : Bytes) : BitVec 32 := LittleEndian.word 32 (rest.take 4)

def storedLength (rest : Bytes) : Nat := (LittleEndian.word 32 ((rest.drop 4).take 4)).toNat

def storedType (rest : Bytes) : Byte := rest.getD 8 0#8

def storedPayload (rest : Bytes) : Bytes := (rest.drop 9).take (storedLength rest)

section Header

variable {crcBytes lengthBytes body : Bytes} {type : Byte}

/-! The fields of a header that is followed by `body`. -/

theorem length_header (hcrc : crcBytes.length = 4) (hlength : lengthBytes.length = 4) :
    (crcBytes ++ lengthBytes ++ [type] ++ body).length = 9 + body.length := by
  simp [hcrc, hlength]; omega

theorem storedCrc_header (hcrc : crcBytes.length = 4) :
    storedCrc (crcBytes ++ lengthBytes ++ [type] ++ body) = LittleEndian.word 32 crcBytes := by
  simp only [storedCrc, List.append_assoc]
  rw [List.take_left' hcrc]

theorem storedLength_header (hcrc : crcBytes.length = 4) (hlength : lengthBytes.length = 4) :
    storedLength (crcBytes ++ lengthBytes ++ [type] ++ body) =
      (LittleEndian.word 32 lengthBytes).toNat := by
  simp only [storedLength, List.append_assoc]
  rw [List.drop_left' hcrc, List.take_left' hlength]

theorem storedType_header (hcrc : crcBytes.length = 4) (hlength : lengthBytes.length = 4) :
    storedType (crcBytes ++ lengthBytes ++ [type] ++ body) = type := by
  simp [storedType, List.getElem?_append, hcrc, hlength]

theorem storedPayload_header (hcrc : crcBytes.length = 4) (hlength : lengthBytes.length = 4) :
    storedPayload (crcBytes ++ lengthBytes ++ [type] ++ body) =
      body.take (LittleEndian.word 32 lengthBytes).toNat := by
  rw [storedPayload, storedLength_header hcrc hlength, List.drop_left' (by simp [hcrc, hlength])]

end Header

theorem decodeRecord_eq (host : Host) {bytes : Bytes} {offset : Nat}
    (hoffset : offset ≤ bytes.length) :
    decodeRecord host bytes offset =
      let rest := bytes.drop offset
      if rest.length < 9 then .stop
      else if rest.length < 9 + storedLength rest then .stop
      else if storedType rest ≠ kBatchRecord then .fail (.corruption "unknown WAL record type")
      else if crc32C host (storedPayload rest) ≠ storedCrc rest then
        if rest.length ≤ 9 + storedLength rest then .stop
        else .fail (.corruption "WAL checksum mismatch")
      else
        match decodeBatch (storedPayload rest) with
        | .error status => .fail status
        | .ok decoded => .next decoded (offset + (9 + storedLength rest)) := by
  have hlen : (bytes.drop offset).length = bytes.length - offset := by simp
  by_cases h4 : offset + 4 ≤ bytes.length
  case neg =>
    simp [decodeRecord, readFixed32LE, readFixedLE_eq, h4, hlen,
      show bytes.length - offset < 9 by omega]
  by_cases h8 : offset + 4 + 4 ≤ bytes.length
  case neg =>
    simp [decodeRecord, readFixed32LE, readFixedLE_eq, h4, h8, hlen,
      show bytes.length - offset < 9 by omega]
  by_cases h9 : offset + 4 + 4 < bytes.length
  case neg =>
    simp [decodeRecord, readFixed32LE, readFixedLE_eq, h4, h8, hlen,
      show bytes.length ≤ offset + 4 + 4 by omega, show bytes.length - offset < 9 by omega]
  have hlength : (LittleEndian.word 32 ((bytes.drop (offset + 4)).take 4)).toNat =
      storedLength (bytes.drop offset) := by rw [storedLength, List.drop_drop]
  have htype : bytes.getD (offset + 4 + 4) 0#8 = storedType (bytes.drop offset) := by
    simp [storedType, Nat.add_assoc]
  have hpayload : (bytes.drop (offset + 4 + 4 + 1)).take (storedLength (bytes.drop offset)) =
      storedPayload (bytes.drop offset) := by
    rw [storedPayload, List.drop_drop]
  have h9' : ¬(bytes.drop offset).length < 9 := by omega
  have hnext : offset + 4 + 4 + 1 + storedLength (bytes.drop offset) =
      offset + (9 + storedLength (bytes.drop offset)) := by omega
  have hshort : offset + (9 + storedLength (bytes.drop offset)) > bytes.length ↔
      (bytes.drop offset).length < 9 + storedLength (bytes.drop offset) := by omega
  have hlast : bytes.length ≤ offset + (9 + storedLength (bytes.drop offset)) ↔
      (bytes.drop offset).length ≤ 9 + storedLength (bytes.drop offset) := by omega
  simp only [decodeRecord, readFixed32LE, readFixedLE_eq, Nat.reduceDiv, h4, h8, if_true,
    ge_iff_le, Nat.not_le.mpr h9, h9', if_false, hlength, htype, hpayload]
  simp only [hnext, hshort, hlast, storedCrc]
  rfl

theorem decodeRecord_past_end (host : Host) {bytes : Bytes} {offset : Nat}
    (h : bytes.length < offset) : decodeRecord host bytes offset = .stop := by
  simp [decodeRecord, readFixed32LE, readFixedLE_eq, show ¬offset + 4 ≤ bytes.length by omega]

theorem decodeRecord_next {host : Host} {bytes : Bytes} {offset n : Nat} {decoded : DecodedBatch}
    (h : decodeRecord host bytes offset = .next decoded n) :
    n = offset + (9 + storedLength (bytes.drop offset)) ∧ n ≤ bytes.length ∧
      storedType (bytes.drop offset) = kBatchRecord ∧
      crc32C host (storedPayload (bytes.drop offset)) = storedCrc (bytes.drop offset) ∧
      decodeBatch (storedPayload (bytes.drop offset)) = .ok decoded := by
  by_cases hoffset : offset ≤ bytes.length
  case neg => simp [decodeRecord_past_end host (Nat.lt_of_not_le hoffset)] at h
  rw [decodeRecord_eq host hoffset] at h
  simp only at h
  split at h
  · contradiction
  split at h
  · contradiction
  next hlen =>
  split at h
  · contradiction
  next htype =>
  split at h
  · split at h <;> contradiction
  next hcrc =>
  split at h
  · contradiction
  next hbatch =>
  obtain ⟨rfl, rfl⟩ : _ ∧ _ := by simpa using h
  refine ⟨rfl, ?_, not_not.mp htype, not_not.mp hcrc, hbatch⟩
  simp only [List.length_drop] at hlen
  omega

/-! ### The loop -/

def decodeLoop (host : Host) (bytes : Bytes) (offset : Nat) (result : DecodeResult) :
    Result DecodeResult :=
  if offset < bytes.length then
    match h : decodeRecord host bytes offset with
    | .stop => .ok result
    | .fail status => .error status
    | .next decoded offset =>
      have := decodeRecord_next h
      decodeLoop host bytes offset
        { batches := result.batches ++ [decoded], validBytes := offset }
  else
    .ok result
termination_by bytes.length - offset

/-- One turn of the loop, without the proof that it ends. -/
theorem decodeLoop_eq (host : Host) (bytes : Bytes) (offset : Nat) (result : DecodeResult) :
    decodeLoop host bytes offset result =
      if offset < bytes.length then
        match decodeRecord host bytes offset with
        | .stop => .ok result
        | .fail status => .error status
        | .next decoded offset =>
          decodeLoop host bytes offset
            { batches := result.batches ++ [decoded], validBytes := offset }
      else
        .ok result := by
  rw [decodeLoop]
  split
  · split <;> next h => simp only [h]
  · rfl

def decodeLog (host : Host) (bytes : Bytes) : Result DecodeResult := decodeLoop host bytes 0 {}

def recordParser (host : Host) : Parser Byte Status DecodedBatch where
  parse rest := decodeRecord host rest 0
  progress h := by
    obtain ⟨rfl, hle, -⟩ := decodeRecord_next h
    exact ⟨by omega, hle⟩

theorem parse_eq (host : Host) (rest : Bytes) :
    (recordParser host).parse rest =
      if rest.length < 9 then .stop
      else if rest.length < 9 + storedLength rest then .stop
      else if storedType rest ≠ kBatchRecord then .fail (.corruption "unknown WAL record type")
      else if crc32C host (storedPayload rest) ≠ storedCrc rest then
        if rest.length ≤ 9 + storedLength rest then .stop
        else .fail (.corruption "WAL checksum mismatch")
      else
        match decodeBatch (storedPayload rest) with
        | .error status => .fail status
        | .ok decoded => .next decoded (9 + storedLength rest) := by
  have := decodeRecord_eq host (Nat.zero_le rest.length)
  simp only [List.drop_zero, Nat.zero_add] at this
  exact this

theorem decodeRecord_drop (host : Host) {bytes : Bytes} {offset : Nat}
    (hoffset : offset ≤ bytes.length) :
    decodeRecord host bytes offset =
      match (recordParser host).parse (bytes.drop offset) with
      | .stop => .stop
      | .fail status => .fail status
      | .next decoded n => .next decoded (offset + n) := by
  rw [decodeRecord_eq host hoffset, parse_eq]
  simp only
  repeat' split
  all_goals simp_all

theorem decodeLoop_eq_scan (host : Host) (bytes : Bytes) (offset : Nat) (result : DecodeResult)
    (hoffset : offset ≤ bytes.length) (hvalid : result.validBytes = offset) :
    decodeLoop host bytes offset result =
      (scan (recordParser host) (bytes.drop offset)).map fun r =>
        { batches := result.batches ++ r.1, validBytes := offset + r.2 } := by
  induction hleft : bytes.length - offset using Nat.strongRecOn generalizing offset result with
  | ind left ih =>
  rw [decodeLoop_eq]
  by_cases hlt : offset < bytes.length
  case neg =>
    rw [if_neg hlt, List.drop_of_length_le (by omega), FrameScan.scan_nil]
    cases result; subst hvalid; simp [Except.map]
  rw [if_pos hlt]
  have hne : bytes.drop offset ≠ [] := by simp; omega
  have hdrop := decodeRecord_drop host hoffset
  cases hparse : (recordParser host).parse (bytes.drop offset) with
  | stop =>
    rw [hparse] at hdrop
    rw [hdrop, FrameScan.scan_stop _ hparse]
    cases result; subst hvalid
    simp [Except.map]
  | fail status =>
    rw [hparse] at hdrop
    rw [hdrop, FrameScan.scan_fail _ hne hparse]
    rfl
  | next decoded n =>
    rw [hparse] at hdrop
    have hprogress := (recordParser host).progress hparse
    simp only [List.length_drop] at hprogress
    have hrec := ih (bytes.length - (offset + n)) (by omega) (offset + n)
      { batches := result.batches ++ [decoded], validBytes := offset + n } (by omega) rfl rfl
    rw [hdrop, FrameScan.scan_next _ hparse, List.drop_drop]
    simp only [hrec]
    cases scan (recordParser host) (bytes.drop (offset + n)) <;> simp [Except.map, Nat.add_assoc]

/-- The decoder scans the log record by record. -/
theorem decodeLog_eq_scan (host : Host) (bytes : Bytes) :
    decodeLog host bytes =
      (scan (recordParser host) bytes).map fun r => { batches := r.1, validBytes := r.2 } := by
  rw [decodeLog, decodeLoop_eq_scan host bytes 0 {} (Nat.zero_le _) rfl]
  simp

theorem scan_of_decodeLog {host : Host} {bytes : Bytes} {result : DecodeResult}
    (h : decodeLog host bytes = .ok result) :
    scan (recordParser host) bytes = .ok (result.batches, result.validBytes) := by
  rw [decodeLog_eq_scan] at h
  cases hscan : scan (recordParser host) bytes with
  | error status => rw [hscan] at h; contradiction
  | ok r =>
    rw [hscan] at h
    obtain rfl := Except.ok.inj h
    rfl

theorem validBytes_le {host : Host} {bytes : Bytes} {result : DecodeResult}
    (h : decodeLog host bytes = .ok result) : result.validBytes ≤ bytes.length :=
  FrameScan.scan_le _ (scan_of_decodeLog h)

/-! ### Errors -/

/-- The one kind of error that the decoder returns. -/
def IsCorruption (status : Status) : Prop := ∃ message, status = .corruption message

theorem decodeEntry_error {payload : Bytes} {offset : Nat} {batch : WriteBatch} {status : Status}
    (h : decodeEntry payload offset batch = .error status) : IsCorruption status := by
  simp only [decodeEntry] at h
  repeat' split at h
  all_goals first | contradiction | exact ⟨_, (Except.error.inj h).symm⟩

theorem decodeEntries_error {payload : Bytes} {left offset : Nat} {batch : WriteBatch}
    {status : Status} (h : decodeEntries payload left offset batch = .error status) :
    IsCorruption status := by
  induction left generalizing offset batch with
  | zero => contradiction
  | succ left ih =>
    rw [decodeEntries] at h
    split at h
    · next hentry => exact decodeEntry_error (Except.error.inj h ▸ hentry)
    · exact ih h

theorem decodeBatch_error {payload : Bytes} {status : Status}
    (h : decodeBatch payload = .error status) : IsCorruption status := by
  simp only [decodeBatch] at h
  split at h
  · exact ⟨_, (Except.error.inj h).symm⟩
  split at h
  · exact ⟨_, (Except.error.inj h).symm⟩
  split at h
  · next hentries => exact decodeEntries_error (Except.error.inj h ▸ hentries)
  · contradiction

theorem parse_fail {host : Host} {rest : Bytes} {status : Status}
    (h : (recordParser host).parse rest = .fail status) : IsCorruption status := by
  rw [parse_eq] at h
  split at h
  · contradiction
  split at h
  · contradiction
  split at h
  · exact ⟨_, (Frame.fail.inj h).symm⟩
  split at h
  · split at h
    · contradiction
    · exact ⟨_, (Frame.fail.inj h).symm⟩
  split at h
  · next hbatch => exact decodeBatch_error (Frame.fail.inj h ▸ hbatch)
  · contradiction

theorem decodeLog_error {host : Host} {bytes : Bytes} {status : Status}
    (h : decodeLog host bytes = .error status) : IsCorruption status := by
  rw [decodeLog_eq_scan] at h
  cases hscan : scan (recordParser host) bytes with
  | ok r => rw [hscan] at h; contradiction
  | error e =>
    rw [hscan] at h
    exact FrameScan.scan_error _ (fun _ _ => parse_fail) (Except.error.inj h ▸ hscan)

end StorageEngine.Wal
