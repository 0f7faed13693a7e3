import StorageEngine.Wal.RoundTrip

/-! What the decoder accepts.  The bytes that it takes are framed payloads (`accepted_frames`), each
of them recognised whatever follows it, so that an accepted log can be read again and extended.  A
payload need not be the encoding of its batch: the decoder does not look behind the last entry, and
it drops the value of a delete entry.  `PayloadExact` says of the bytes that nothing is dropped. -/

namespace StorageEngine.Wal

open LittleEndian (bytes word)
open FrameScan (scan IsFrame Local)

/-! ### Records -/

theorem bytes_field {field : Bytes} (h : field.length = 4) : bytes 4 (word 32 field) = field := by
  have := LittleEndian.bytes_word (w := 32) field (by omega)
  rwa [h] at this

theorem parse_next {host : Host} {rest : Bytes} {decoded : DecodedBatch} {n : Nat}
    (h : (recordParser host).parse rest = .next decoded n) :
    ∃ payload, rest.take n = frame host payload ∧ payload.length < 2 ^ 32 ∧
      decodeBatch payload = .ok decoded := by
  obtain ⟨hn, hle, htype, hcrc, hbatch⟩ := decodeRecord_next h
  simp only [List.drop_zero, Nat.zero_add] at hn htype hcrc hbatch
  subst hn
  have hlength : (storedPayload rest).length = storedLength rest := by
    simp only [storedPayload, List.length_take, List.length_drop]
    omega
  have hcrcField : bytes 4 (storedCrc rest) = rest.take 4 := bytes_field (by simp; omega)
  have hlengthField : bytes 4 (BitVec.ofNat 32 (storedLength rest)) = (rest.drop 4).take 4 := by
    rw [storedLength, BitVec.ofNat_toNat, BitVec.setWidth_eq]
    exact bytes_field (by simp; omega)
  have htypeField : [kBatchRecord] = (rest.drop 8).take 1 := by
    rw [List.drop_eq_getElem_cons (show 8 < rest.length by omega), ← htype, storedType,
      List.getD_eq_getElem _ _ (show 8 < rest.length by omega)]
    rfl
  refine ⟨storedPayload rest, ?_, ?_, hbatch⟩
  · rw [frame, hcrc, hcrcField, hlength, hlengthField, htypeField, storedPayload,
      show 9 + storedLength rest = 4 + 4 + 1 + storedLength rest by omega, List.take_add,
      List.take_add, List.take_add]
  · rw [hlength]
    exact BitVec.isLt _

theorem recordParser_local (host : Host) : Local (recordParser host) := by
  intro rest decoded n h
  obtain ⟨payload, htake, hlen, hdecode⟩ := parse_next h
  rw [htake]
  exact isFrame_frame host hlen hdecode

/-- The accepted part of a log is read again in the same way, and what follows it is decoded as if
it stood alone. -/
theorem decodeLog_take_append {host : Host} {log : Bytes} {result : DecodeResult}
    (h : decodeLog host log = .ok result) (rest : Bytes) :
    decodeLog host (log.take result.validBytes ++ rest) =
      (decodeLog host rest).map fun r =>
        { batches := result.batches ++ r.batches
          validBytes := result.validBytes + r.validBytes } := by
  rw [decodeLog_eq_scan, decodeLog_eq_scan,
    FrameScan.scan_take_append _ (recordParser_local host) (scan_of_decodeLog h)]
  cases scan (recordParser host) rest <;> rfl

theorem decodeLog_take {host : Host} {log : Bytes} {result : DecodeResult}
    (h : decodeLog host log = .ok result) :
    decodeLog host (log.take result.validBytes) = .ok result := by
  have := decodeLog_take_append h []
  rw [decodeLog_nil] at this
  simpa [Except.map] using this

/-- The accepted part of a log consists of framed payloads, one for each batch. -/
theorem accepted_frames {host : Host} {log : Bytes} {result : DecodeResult}
    (h : decodeLog host log = .ok result) :
    ∃ payloads : List Bytes, log.take result.validBytes = payloads.flatMap (frame host) ∧
      (∀ payload ∈ payloads, payload.length < 2 ^ 32) ∧
      List.Forall₂ (fun payload decoded => decodeBatch payload = .ok decoded) payloads
        result.batches := by
  obtain ⟨payloads, hlog, hpayloads⟩ := FrameScan.scan_ok_frames _ (frame host)
    (fun _ _ _ => parse_next) (scan_of_decodeLog h)
  exact ⟨payloads, hlog, (List.forall₂_and_left _ _).mp hpayloads⟩

/-! ### Entries -/

/-- The type byte of the entry at `offset` of a payload. -/
def storedEntryType (payload : Bytes) (offset : Nat) : Byte := payload.getD offset 0#8

def storedKeySize (payload : Bytes) (offset : Nat) : Nat :=
  (word 32 ((payload.drop (offset + 1)).take 4)).toNat

def storedValueSize (payload : Bytes) (offset : Nat) : Nat :=
  (word 32 ((payload.drop (offset + 5)).take 4)).toNat

def storedEntrySize (payload : Bytes) (offset : Nat) : Nat :=
  9 + storedKeySize payload offset + storedValueSize payload offset

/-- No delete entry with a value stands at `offset`. -/
def EntryExact (payload : Bytes) (offset : Nat) : Prop :=
  storedEntryType payload offset = EntryType.kDelete.toByte → storedValueSize payload offset = 0

instance (payload : Bytes) (offset : Nat) : Decidable (EntryExact payload offset) := by
  unfold EntryExact; infer_instance

/-- What the decoder makes of the entry at `offset`. -/
structure EntryAt (payload : Bytes) (offset : Nat) (entry : Entry) : Prop where
  inside : offset + storedEntrySize payload offset ≤ payload.length
  type : entry.type.toByte = storedEntryType payload offset
  key : entry.key = (payload.drop (offset + 9)).take (storedKeySize payload offset)
  put : entry.type = .kPut → entry.value =
    (payload.drop (offset + 9 + storedKeySize payload offset)).take (storedValueSize payload offset)
  delete : entry.type = .kDelete → entry.value = []

theorem decodeEntry_ok {payload : Bytes} {offset next : Nat} {batch after : WriteBatch}
    (h : decodeEntry payload offset batch = .ok (after, next)) :
    next = offset + storedEntrySize payload offset ∧
      ∃ entry, after.entries = batch.entries ++ [entry] ∧ EntryAt payload offset entry := by
  simp only [decodeEntry, readFixed32LE, readFixedLE_eq, Nat.reduceDiv] at h
  split at h
  · contradiction
  split at h
  · contradiction
  next hkey =>
  obtain ⟨-, rfl, rfl⟩ : _ ∧ _ ∧ _ := by simpa [Option.ite_none_right_eq_some] using hkey
  split at h
  · contradiction
  next hvalue =>
  obtain ⟨-, rfl, rfl⟩ : _ ∧ _ ∧ _ := by simpa [Option.ite_none_right_eq_some] using hvalue
  split at h
  · contradiction
  next hinside =>
  have hsize : offset + 1 + 4 + 4 + storedKeySize payload offset + storedValueSize payload offset =
      offset + storedEntrySize payload offset := by
    unfold storedEntrySize
    omega
  have hle : offset + storedEntrySize payload offset ≤ payload.length := by
    rw [← hsize]
    exact Nat.le_of_not_lt hinside
  split at h
  · next htype =>
    obtain ⟨rfl, rfl⟩ := Prod.mk.inj (Except.ok.inj h)
    exact ⟨hsize, _, rfl, hle, htype.symm, rfl, fun _ => rfl, fun h => EntryType.noConfusion h⟩
  split at h
  · next htype =>
    obtain ⟨rfl, rfl⟩ := Prod.mk.inj (Except.ok.inj h)
    exact ⟨hsize, _, rfl, hle, htype.symm, rfl, fun h => EntryType.noConfusion h, fun _ => rfl⟩
  · contradiction

namespace EntryAt

variable {payload : Bytes} {offset : Nat} {entry : Entry}

theorem length_key (h : EntryAt payload offset entry) :
    entry.key.length = storedKeySize payload offset := by
  have hinside := h.inside
  unfold storedEntrySize at hinside
  rw [h.key, List.length_take, List.length_drop]
  omega

theorem length_value (h : EntryAt payload offset entry) :
    entry.value.length =
      if entry.type = .kDelete then 0 else storedValueSize payload offset := by
  have hinside := h.inside
  unfold storedEntrySize at hinside
  cases htype : entry.type with
  | kPut =>
    rw [h.put htype, List.length_take, List.length_drop, if_neg nofun]
    omega
  | kDelete => rw [h.delete htype, if_pos rfl, List.length_nil]

theorem entryExact_iff (h : EntryAt payload offset entry) :
    EntryExact payload offset ↔ entry.value.length = storedValueSize payload offset := by
  rw [EntryExact, ← h.type, h.length_value]
  cases entry.type with
  | kPut => simp [EntryType.toByte]
  | kDelete => simp [eq_comm]

theorem length_le (h : EntryAt payload offset entry) :
    (entryBytes entry).length ≤ storedEntrySize payload offset := by
  have hvalue : entry.value.length ≤ storedValueSize payload offset := by
    rw [h.length_value]
    split <;> omega
  rw [length_entryBytes, h.length_key, storedEntrySize, kEntryHeaderSize]
  omega

theorem length_eq_iff (h : EntryAt payload offset entry) :
    (entryBytes entry).length = storedEntrySize payload offset ↔ EntryExact payload offset := by
  rw [h.entryExact_iff, length_entryBytes, h.length_key, storedEntrySize, kEntryHeaderSize]
  omega

/-- The bytes of an exact entry are its encoding. -/
theorem bytes_eq (h : EntryAt payload offset entry) (hexact : EntryExact payload offset) :
    (payload.drop offset).take (storedEntrySize payload offset) = entryBytes entry := by
  have hinside := h.inside
  unfold storedEntrySize at hinside ⊢
  have htype : (payload.drop offset).take 1 = [entry.type.toByte] := by
    rw [List.drop_eq_getElem_cons (show offset < payload.length by omega), h.type, storedEntryType,
      List.getD_eq_getElem _ _ (show offset < payload.length by omega)]
    rfl
  have hkey : bytes 4 (BitVec.ofNat 32 entry.key.length) = (payload.drop (offset + 1)).take 4 := by
    rw [h.length_key, storedKeySize, BitVec.ofNat_toNat, BitVec.setWidth_eq]
    exact bytes_field (by simp; omega)
  have hvalue : bytes 4 (BitVec.ofNat 32 entry.value.length) =
      (payload.drop (offset + 5)).take 4 := by
    rw [h.entryExact_iff.mp hexact, storedValueSize, BitVec.ofNat_toNat, BitVec.setWidth_eq]
    exact bytes_field (by simp; omega)
  have hvalueBytes : (payload.drop (offset + 9 + storedKeySize payload offset)).take
      (storedValueSize payload offset) = entry.value := by
    cases hput : entry.type with
    | kPut => exact (h.put hput).symm
    | kDelete =>
      rw [hexact (by rw [← h.type, hput]), h.delete hput, List.take_zero]
  rw [show 9 = 1 + 4 + 4 by rfl, List.take_add, List.take_add, List.take_add, List.take_add,
    List.drop_drop, List.drop_drop, List.drop_drop, List.drop_drop, htype, entryBytes, entryHeader,
    hkey, hvalue, ← hvalueBytes, h.key]
  simp [Nat.add_assoc]

end EntryAt

/-! ### Payloads -/

/-- The announced entries are exact and fill the payload from `offset` to its end. -/
def EntriesExact (payload : Bytes) : Nat → Nat → Prop
  | 0, offset => offset = payload.length
  | left + 1, offset =>
    EntryExact payload offset ∧
      EntriesExact payload left (offset + storedEntrySize payload offset)

instance decidableEntriesExact (payload : Bytes) :
    (left offset : Nat) → Decidable (EntriesExact payload left offset)
  | 0, offset => inferInstanceAs (Decidable (offset = payload.length))
  | left + 1, offset =>
    have := decidableEntriesExact payload left (offset + storedEntrySize payload offset)
    inferInstanceAs (Decidable (EntryExact payload offset ∧ EntriesExact payload left _))

def storedCount (payload : Bytes) : Nat := (word 32 ((payload.drop 8).take 4)).toNat

/-- The entries that the payload announces fill it to its last byte, and no delete entry has a
value. -/
def PayloadExact (payload : Bytes) : Prop := EntriesExact payload (storedCount payload) 12

instance (payload : Bytes) : Decidable (PayloadExact payload) := by
  unfold PayloadExact; infer_instance

theorem decodeEntries_ok {payload : Bytes} {left offset : Nat} {batch result : WriteBatch}
    (hoffset : offset ≤ payload.length)
    (h : decodeEntries payload left offset batch = .ok result) :
    ∃ entries, result.entries = batch.entries ++ entries ∧ entries.length = left ∧
      offset + (entries.flatMap entryBytes).length ≤ payload.length ∧
      (EntriesExact payload left offset ↔ payload.drop offset = entries.flatMap entryBytes) := by
  induction left generalizing offset batch with
  | zero =>
    obtain rfl := Except.ok.inj h
    refine ⟨[], by simp, rfl, hoffset, ?_⟩
    rw [EntriesExact, List.flatMap_nil, List.drop_eq_nil_iff]
    omega
  | succ left ih =>
    rw [decodeEntries] at h
    split at h
    · contradiction
    next after next hentry =>
    obtain ⟨rfl, entry, hafter, hat⟩ := decodeEntry_ok hentry
    obtain ⟨entries, hresult, hlength, hle, hexact⟩ := ih hat.inside h
    have hentryLe := hat.length_le
    refine ⟨entry :: entries, ?_, by rw [List.length_cons, hlength], ?_, ?_⟩
    · rw [hresult, hafter, List.append_assoc, List.singleton_append]
    · rw [List.flatMap_cons, List.length_append]
      omega
    -- The front of the rest is the entry's bytes, so both sides split there.
    have hsplit := List.take_append_drop (storedEntrySize payload offset) (payload.drop offset)
    rw [List.drop_drop] at hsplit
    rw [EntriesExact, hexact, List.flatMap_cons]
    constructor
    · rintro ⟨hfirst, hrest⟩
      rw [← hsplit, hat.bytes_eq hfirst, hrest]
    · intro hbytes
      have hlen := congrArg List.length hbytes
      rw [List.length_drop, List.length_append] at hlen
      have hfirst := hat.length_eq_iff.mp (by omega)
      refine ⟨hfirst, ?_⟩
      rw [← hsplit, hat.bytes_eq hfirst] at hbytes
      exact List.append_cancel_left hbytes

/-- The group of a decoded batch. -/
def DecodedBatch.group (decoded : DecodedBatch) : Group := ⟨decoded.baseSequence, [decoded.batch]⟩

@[simp] theorem DecodedBatch.entries_group (decoded : DecodedBatch) :
    decoded.group.entries = decoded.batch.entries := by
  simp [group, Group.entries, groupEntries]

theorem decodeBatch_ok {payload : Bytes} {decoded : DecodedBatch}
    (h : decodeBatch payload = .ok decoded) :
    decoded.group.payload.length ≤ payload.length ∧
      (PayloadExact payload ↔ payload = decoded.group.payload) := by
  simp only [decodeBatch, readFixed64LE, readFixed32LE, readFixedLE_eq, Nat.reduceDiv] at h
  split at h
  · contradiction
  next hbase =>
  obtain ⟨hlen8, rfl, rfl⟩ : _ ∧ _ ∧ _ := by simpa [Option.ite_none_right_eq_some] using hbase
  split at h
  · contradiction
  next hcount =>
  obtain ⟨hlen, rfl, rfl⟩ : _ ∧ _ ∧ _ := by simpa [Option.ite_none_right_eq_some] using hcount
  split at h
  · contradiction
  next batch hentries =>
  obtain rfl := Except.ok.inj h
  obtain ⟨entries, hbatch, hleft, hle, hexact⟩ := decodeEntries_ok hlen hentries
  rw [WriteBatch.entries_new, List.nil_append] at hbatch
  subst hbatch
  -- The header is that of the encoding in any case.
  have hheader : payload.take 12 = batchHeader (word 64 (payload.take 8))
      (countEntries [batch]) := by
    have h8 := LittleEndian.bytes_word (w := 64) (payload.take 8) (by simp; omega)
    rw [List.length_take, Nat.min_eq_left hlen8] at h8
    have h4 : bytes 4 (word 32 ((payload.drop 8).take 4)) = (payload.drop 8).take 4 :=
      bytes_field (by simp; omega)
    rw [countEntries_eq]
    simp only [groupEntries, List.flatMap_singleton, hleft, BitVec.ofNat_toNat, BitVec.setWidth_eq,
      batchHeader, h8, h4]
    rw [show 12 = 8 + 4 by rfl, List.take_add]
  have hpayload : (DecodedBatch.group ⟨word 64 (payload.take 8), batch⟩).payload =
      payload.take 12 ++ batch.entries.flatMap entryBytes := by
    rw [Group.payload, payloadOf, DecodedBatch.entries_group, hheader]
    rfl
  refine ⟨?_, ?_⟩
  · rw [hpayload, List.length_append, List.length_take]
    omega
  · rw [hpayload, PayloadExact, storedCount, hexact]
    conv => rhs; lhs; rw [← List.take_append_drop 12 payload]
    exact (List.append_right_inj _).symm

/-! ### Logs -/

theorem length_flatten_le {as bs : List Bytes}
    (h : List.Forall₂ (fun a b => b.length ≤ a.length) as bs) :
    bs.flatten.length ≤ as.flatten.length := by
  induction h with
  | nil => exact Nat.le_refl _
  | cons hab _ ih =>
    rw [List.flatten_cons, List.flatten_cons, List.length_append, List.length_append]
    omega

/-- Parts that are nowhere shorter than other parts have the same concatenation only if they are
the same. -/
theorem flatten_eq_iff {as bs : List Bytes}
    (h : List.Forall₂ (fun a b => b.length ≤ a.length) as bs) :
    as.flatten = bs.flatten ↔ as = bs := by
  refine ⟨fun heq => ?_, congrArg List.flatten⟩
  induction h with
  | nil => rfl
  | cons hab hrest ih =>
    have hle := length_flatten_le hrest
    have hlen := congrArg List.length heq
    rw [List.flatten_cons, List.flatten_cons] at heq hlen
    rw [List.length_append, List.length_append] at hlen
    obtain ⟨rfl, hflatten⟩ := List.append_inj heq (by omega)
    rw [ih hflatten]

/-- The payloads of the records in a log, by their length fields. -/
def recordPayloads (log : Bytes) : List Bytes :=
  if 9 + storedLength log ≤ log.length then
    storedPayload log :: recordPayloads (log.drop (9 + storedLength log))
  else
    []
termination_by log.length
decreasing_by simp only [List.length_drop]; omega

theorem recordPayloads_nil : recordPayloads [] = [] := by
  rw [recordPayloads, if_neg (by simp)]

theorem recordPayloads_frames (host : Host) {payloads : List Bytes}
    (h : ∀ payload ∈ payloads, payload.length < 2 ^ 32) :
    recordPayloads (payloads.flatMap (frame host)) = payloads := by
  induction payloads with
  | nil => exact recordPayloads_nil
  | cons payload payloads ih =>
    obtain ⟨hpayload, hrest⟩ := List.forall_mem_cons.mp h
    have hlen : (frame host payload).length = 9 + payload.length := length_frame host payload
    rw [List.flatMap_cons, recordPayloads, storedLength_frame host _ hpayload,
      storedPayload_frame host _ hpayload, if_pos (by rw [List.length_append]; omega),
      List.drop_left' hlen, ih hrest]

/-- The encoding of decoded batches, one record for each. -/
def encodeDecoded (host : Host) (batches : List DecodedBatch) : Bytes :=
  batches.flatMap fun decoded => encodeRecord host decoded.baseSequence [decoded.batch]

theorem frame_injective (host : Host) : Function.Injective (frame host) := by
  intro a b h
  have hdrop : ∀ payload, (frame host payload).drop 9 = payload := fun payload =>
    List.drop_left' (by simp)
  rw [← hdrop a, h, hdrop]

section Accepted

variable (host : Host) {payloads : List Bytes} {batches : List DecodedBatch}
  (h : List.Forall₂ (fun payload decoded => decodeBatch payload = .ok decoded) payloads batches)

include h

theorem length_encode_le_frame :
    List.Forall₂ (fun a b : Bytes => b.length ≤ a.length) (payloads.map (frame host))
      (batches.map fun decoded => decoded.group.encode host) := by
  rw [List.forall₂_map_left_iff, List.forall₂_map_right_iff]
  refine h.imp fun payload decoded hdecode => ?_
  rw [Group.encode_eq, length_frame, length_frame]
  exact Nat.add_le_add_left (decodeBatch_ok hdecode).1 _

theorem map_frame_eq_iff :
    payloads.map (frame host) = batches.map (fun decoded => decoded.group.encode host) ↔
      ∀ payload ∈ payloads, PayloadExact payload := by
  induction h with
  | nil => simp
  | cons hdecode _ ih =>
    rw [List.map_cons, List.map_cons, List.cons.injEq, ih, Group.encode_eq,
      (frame_injective host).eq_iff, ← (decodeBatch_ok hdecode).2, List.forall_mem_cons]

end Accepted

/-- The accepted part of a log is the encoding of the decoded batches exactly when every payload in
it is filled by the entries that it announces, and no delete entry there has a value. -/
theorem accepted_is_encoding_iff (host : Host) (log : Bytes) (result : DecodeResult)
    (h : decodeLog host log = .ok result) :
    log.take result.validBytes = encodeDecoded host result.batches ↔
      ∀ payload ∈ recordPayloads (log.take result.validBytes), PayloadExact payload := by
  obtain ⟨payloads, hlog, hfits, hbatches⟩ := accepted_frames h
  rw [hlog, recordPayloads_frames host hfits, ← map_frame_eq_iff host hbatches, List.flatMap_def]
  exact flatten_eq_iff (length_encode_le_frame host hbatches)

/-- A byte behind the last entry of a record, and the value of a delete entry, are accepted and
dropped. -/
theorem accepted_beyond_encoding :
    let slack := frame .sample (payloadOf 1 1 [⟨.kPut, [97], [49]⟩] ++ [0])
    let valued := frame .sample (payloadOf 1 1 [⟨.kDelete, [97], [49]⟩])
    (∃ result, decodeLog .sample slack = .ok result ∧
        slack.take result.validBytes ≠ encodeDecoded .sample result.batches) ∧
      ∃ result, decodeLog .sample valued = .ok result ∧
        valued.take result.validBytes ≠ encodeDecoded .sample result.batches :=
  ⟨⟨⟨[⟨1, .put .new [97] [49]⟩], 33⟩, by decide +kernel⟩,
    ⟨⟨[⟨1, .delete .new [97]⟩], 32⟩, by decide +kernel⟩⟩

theorem accepted_is_encoding_iff_put :
    let log := (Group.put 1 [97] [49]).encode .sample
    ∃ result, decodeLog .sample log = .ok result ∧
      (log.take result.validBytes = encodeDecoded .sample result.batches ↔
        ∀ payload ∈ recordPayloads (log.take result.validBytes), PayloadExact payload) :=
  ⟨⟨[⟨1, .put .new [97] [49]⟩], 32⟩, by decide +kernel,
    accepted_is_encoding_iff .sample _ _ (by decide +kernel)⟩

end StorageEngine.Wal
