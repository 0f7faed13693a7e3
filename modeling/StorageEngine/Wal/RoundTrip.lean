import StorageEngine.Wal.Decode

/-! Whole logs.  A `Group` is what one record stores: a base sequence number and the batches that
share the record.  Decoding a concatenation of encoded groups returns the groups, and whatever
follows them is decoded as if it stood alone. -/

namespace StorageEngine.Wal

open LittleEndian (bytes)
open FrameScan (scan IsFrame)

/-- A write group: the first sequence number and the batches, in order. -/
structure Group where
  baseSequence : BitVec 64
  batches : List WriteBatch
  deriving DecidableEq

def mergeBatches (batches : List WriteBatch) : WriteBatch where
  entries := groupEntries batches
  deleteEmpty := by
    intro entry hentry
    obtain ⟨batch, -, hmem⟩ := List.mem_flatMap.mp hentry
    exact batch.deleteEmpty entry hmem

namespace Group

def put (baseSequence : BitVec 64) (key value : Bytes) : Group :=
  ⟨baseSequence, [WriteBatch.new.put key value]⟩

def entries (group : Group) : List Entry := groupEntries group.batches

def encode (host : Host) (group : Group) : Bytes :=
  encodeRecord host group.baseSequence group.batches

def payload (group : Group) : Bytes :=
  payloadOf group.baseSequence (countEntries group.batches) group.entries

/-- The payload is shorter than `2^32` bytes, so its length and every length in it fit the
format's `uint32_t` fields. -/
def Fits (group : Group) : Prop := group.payload.length < 2 ^ 32

instance (group : Group) : Decidable group.Fits := by unfold Fits; infer_instance

def decoded (group : Group) : DecodedBatch := ⟨group.baseSequence, mergeBatches group.batches⟩

theorem encode_eq (host : Host) (group : Group) : group.encode host = frame host group.payload := by
  rw [encode, encodeRecord, encodeBatchInto_eq]
  rfl

theorem length_encode (host : Host) (group : Group) :
    (group.encode host).length = 9 + group.payload.length := by
  rw [encode_eq, length_frame]
  rfl

theorem length_payload (group : Group) :
    group.payload.length = 12 + (group.entries.flatMap entryBytes).length := by
  rw [payload, length_payloadOf]
  rfl

theorem Fits.entries_lt {group : Group} (h : group.Fits) : group.entries.length < 2 ^ 32 := by
  have hlen := length_payload group
  have hheaders := length_flatMap_entryBytes group.entries
  unfold Fits at h
  unfold kEntryHeaderSize at hheaders
  omega

theorem Fits.entry_lt {group : Group} (h : group.Fits) {entry : Entry}
    (hentry : entry ∈ group.entries) :
    entry.key.length < 2 ^ 32 ∧ entry.value.length < 2 ^ 32 := by
  have hlen := length_payload group
  have hmem :=
    (List.sublist_flatten_of_mem (List.mem_map_of_mem (f := entryBytes) hentry)).length_le
  rw [← List.flatMap_def, length_entryBytes] at hmem
  unfold Fits at h
  omega

/-- Every number of a group that an encoder narrows to a `uint32_t` keeps its value. -/
structure Lossless (group : Group) : Prop where
  key : ∀ entry ∈ group.entries, (BitVec.ofNat 32 entry.key.length).toNat = entry.key.length
  value : ∀ entry ∈ group.entries, (BitVec.ofNat 32 entry.value.length).toNat = entry.value.length
  batch : ∀ batch ∈ group.batches,
    (BitVec.ofNat 32 batch.entries.length).toNat = batch.entries.length
  count : (countEntries group.batches).toNat = group.entries.length
  payload : (BitVec.ofNat 32 (encodedBatchSize group.batches - kRecordHeaderSize)).toNat =
    group.payload.length

theorem Fits.lossless {group : Group} (h : group.Fits) : group.Lossless where
  key entry hentry := by
    rw [BitVec.toNat_ofNat, Nat.mod_eq_of_lt (h.entry_lt hentry).1]
  value entry hentry := by
    rw [BitVec.toNat_ofNat, Nat.mod_eq_of_lt (h.entry_lt hentry).2]
  batch batch hbatch := by
    have hsublist := List.sublist_flatten_of_mem (List.mem_map_of_mem (f := WriteBatch.entries)
      hbatch)
    rw [← List.flatMap_def] at hsublist
    rw [BitVec.toNat_ofNat, Nat.mod_eq_of_lt (Nat.lt_of_le_of_lt hsublist.length_le h.entries_lt)]
  count := by
    rw [countEntries_eq, BitVec.toNat_ofNat]
    exact Nat.mod_eq_of_lt h.entries_lt
  payload := by
    have hsize : encodedBatchSize group.batches - kRecordHeaderSize = group.payload.length := by
      rw [encodedBatchSize_eq, payload, length_payloadOf, entries]
      omega
    rw [hsize, BitVec.toNat_ofNat, Nat.mod_eq_of_lt h]

end Group

def encodeLog (host : Host) (groups : List Group) : Bytes := groups.flatMap (Group.encode host)

@[simp] theorem encodeLog_nil (host : Host) : encodeLog host [] = [] := rfl

theorem encodeLog_cons (host : Host) (group : Group) (groups : List Group) :
    encodeLog host (group :: groups) = group.encode host ++ encodeLog host groups := rfl

@[simp] theorem encodeLog_append (host : Host) (as bs : List Group) :
    encodeLog host (as ++ bs) = encodeLog host as ++ encodeLog host bs := by simp [encodeLog]

@[simp] theorem encodeLog_singleton (host : Host) (group : Group) :
    encodeLog host [group] = group.encode host := by simp [encodeLog]

/-! ### One entry -/

theorem decodeEntry_append {before : Bytes} (after : Bytes) {entry : Entry} (batch : WriteBatch)
    {offset : Nat} (hoffset : before.length = offset) (hkey : entry.key.length < 2 ^ 32)
    (hvalue : entry.value.length < 2 ^ 32) (hdelete : entry.type = .kDelete → entry.value = []) :
    decodeEntry (before ++ entryBytes entry ++ after) offset batch =
      .ok (batch.appendEntry entry hdelete, offset + (entryBytes entry).length) := by
  obtain ⟨type, key, value⟩ := entry
  simp only at hkey hvalue hdelete
  generalize hpayload : before ++ entryBytes ⟨type, key, value⟩ ++ after = payload
  have hshape : payload = before ++ [type.toByte] ++ bytes 4 (BitVec.ofNat 32 key.length) ++
      bytes 4 (BitVec.ofNat 32 value.length) ++ key ++ value ++ after := by
    rw [← hpayload, entryBytes, entryHeader]
    simp
  have hlen : payload.length = offset + 9 + key.length + value.length + after.length := by
    simp [hshape, hoffset]; omega
  have htype : payload.getD offset 0#8 = type.toByte := by
    simp [hshape, ← hoffset]
  have hkeySize : readFixed32LE payload (offset + 1) =
      some (BitVec.ofNat 32 key.length, offset + 1 + 4) := by
    have := readFixedLE_append (by decide) (BitVec.ofNat 32 key.length) (before ++ [type.toByte])
      (bytes 4 (BitVec.ofNat 32 value.length) ++ key ++ value ++ after) (offset + 1)
      (by simp [hoffset])
    rw [readFixed32LE, hshape]
    simpa using this
  have hvalueSize : readFixed32LE payload (offset + 1 + 4) =
      some (BitVec.ofNat 32 value.length, offset + 1 + 4 + 4) := by
    have := readFixedLE_append (by decide) (BitVec.ofNat 32 value.length)
      (before ++ [type.toByte] ++ bytes 4 (BitVec.ofNat 32 key.length)) (key ++ value ++ after)
      (offset + 1 + 4) (by simp [hoffset])
    rw [readFixed32LE, hshape]
    simpa using this
  have hkeyBytes : (payload.drop (offset + 1 + 4 + 4)).take key.length = key := by
    rw [hshape, List.append_assoc, List.append_assoc _ key, List.drop_left' (by simp [hoffset]),
      List.take_left' rfl]
  have hvalueBytes :
      (payload.drop (offset + 1 + 4 + 4 + key.length)).take value.length = value := by
    rw [hshape, List.append_assoc _ value, List.drop_left' (by simp [hoffset]; omega),
      List.take_left' rfl]
  have hkeyNat : (BitVec.ofNat 32 key.length).toNat = key.length := by simpa using hkey
  have hvalueNat : (BitVec.ofNat 32 value.length).toNat = value.length := by simpa using hvalue
  have hlenEntry : (entryBytes ⟨type, key, value⟩).length = 9 + key.length + value.length := by
    rw [length_entryBytes]; rfl
  simp only [decodeEntry, htype, hkeySize, hvalueSize, hkeyNat, hvalueNat, hkeyBytes, hvalueBytes,
    hlenEntry]
  rw [if_neg (by omega), if_neg (by omega)]
  have hend : offset + 1 + 4 + 4 + key.length + value.length =
      offset + (9 + key.length + value.length) := by omega
  cases type with
  | kPut => simp [hend, WriteBatch.put]
  | kDelete =>
    obtain rfl := hdelete rfl
    simp [WriteBatch.delete, EntryType.toByte]
    omega

/-! ### One payload -/

theorem decodeEntries_append (before after : Bytes) (entries : List Entry) (batch : WriteBatch)
    (offset : Nat) (hoffset : before.length = offset)
    (hsize : ∀ entry ∈ entries, entry.key.length < 2 ^ 32 ∧ entry.value.length < 2 ^ 32)
    (hdelete : ∀ entry ∈ entries, entry.type = .kDelete → entry.value = []) :
    ∃ result, decodeEntries (before ++ entries.flatMap entryBytes ++ after) entries.length offset
      batch = .ok result ∧ result.entries = batch.entries ++ entries := by
  induction entries generalizing before batch offset with
  | nil => exact ⟨batch, rfl, by simp⟩
  | cons entry entries ih =>
    obtain ⟨hkey, hvalue⟩ := hsize entry (by simp)
    have hentry := decodeEntry_append (entries.flatMap entryBytes ++ after) batch hoffset hkey
      hvalue (hdelete entry (by simp))
    obtain ⟨result, hrest, hresult⟩ := ih (before ++ entryBytes entry)
      (batch.appendEntry entry (hdelete entry (by simp))) (offset + (entryBytes entry).length)
      (by simp [hoffset]) (fun e he => hsize e (by simp [he])) fun e he => hdelete e (by simp [he])
    refine ⟨result, ?_, by simpa using hresult⟩
    simp only [List.append_assoc, List.flatMap_cons, List.length_cons, decodeEntries] at *
    rw [hentry]
    exact hrest

theorem decodeBatch_payload {group : Group} (h : group.Fits) :
    decodeBatch group.payload = .ok group.decoded := by
  have hcount := h.lossless.count
  have hbase := readFixedLE_append (by decide) group.baseSequence []
    (bytes 4 (countEntries group.batches) ++ group.entries.flatMap entryBytes) 0 rfl
  have hnum := readFixedLE_append (by decide) (countEntries group.batches)
    (bytes 8 group.baseSequence) (group.entries.flatMap entryBytes) (0 + 8) (by simp)
  obtain ⟨batch, hentries, hbatch⟩ := decodeEntries_append
    (batchHeader group.baseSequence (countEntries group.batches)) [] group.entries .new (0 + 8 + 4)
    (by simp [kBatchHeaderSize]) (fun entry hentry => h.entry_lt hentry)
    (mergeBatches group.batches).deleteEmpty
  have hmerge : batch = mergeBatches group.batches := by
    apply WriteBatch.ext
    rw [hbatch, WriteBatch.entries_new, List.nil_append]
    rfl
  simp only [Nat.reduceDiv, List.nil_append, List.append_nil, batchHeader, List.append_assoc]
    at hbase hnum hentries
  simp only [decodeBatch, Group.payload, payloadOf, batchHeader, readFixed64LE, readFixed32LE,
    List.append_assoc, hbase, hnum, hcount, hentries, hmerge]
  rfl

/-! ### One record -/

section Frame

variable (host : Host) {payload : Bytes} (rest : Bytes)

/-! The fields of a framed payload, whatever follows it. -/

theorem frame_append (payload : Bytes) :
    frame host payload ++ rest = bytes 4 (crc32C host payload) ++
      bytes 4 (BitVec.ofNat 32 payload.length) ++ [kBatchRecord] ++ (payload ++ rest) := by
  simp [frame]

theorem storedCrc_frame (payload : Bytes) :
    storedCrc (frame host payload ++ rest) = crc32C host payload := by
  rw [frame_append, storedCrc_header (by simp), LittleEndian.word_bytes _ (by decide)]

theorem storedLength_frame (h : payload.length < 2 ^ 32) :
    storedLength (frame host payload ++ rest) = payload.length := by
  rw [frame_append, storedLength_header (by simp) (by simp),
    LittleEndian.word_bytes _ (by decide), BitVec.toNat_ofNat, Nat.mod_eq_of_lt h]

theorem storedType_frame (payload : Bytes) :
    storedType (frame host payload ++ rest) = kBatchRecord := by
  rw [frame_append, storedType_header (by simp) (by simp)]

theorem storedPayload_frame (h : payload.length < 2 ^ 32) :
    storedPayload (frame host payload ++ rest) = payload := by
  rw [frame_append, storedPayload_header (by simp) (by simp),
    LittleEndian.word_bytes _ (by decide), BitVec.toNat_ofNat, Nat.mod_eq_of_lt h,
    List.take_left' rfl]

end Frame

theorem isFrame_frame (host : Host) {payload : Bytes} (h : payload.length < 2 ^ 32)
    {decoded : DecodedBatch} (hdecode : decodeBatch payload = .ok decoded) :
    IsFrame (recordParser host) (frame host payload) decoded := by
  intro rest
  have hlen : (frame host payload ++ rest).length = 9 + payload.length + rest.length := by
    rw [List.length_append, length_frame]; rfl
  rw [parse_eq]
  simp only [storedLength_frame host rest h, storedType_frame, storedPayload_frame host rest h,
    storedCrc_frame, hdecode, hlen, length_frame]
  rw [if_neg (by omega), if_neg (by omega)]
  simp [kRecordHeaderSize]

theorem isFrame_encode (host : Host) {group : Group} (h : group.Fits) :
    IsFrame (recordParser host) (group.encode host) group.decoded := by
  rw [Group.encode_eq]
  exact isFrame_frame host h (decodeBatch_payload h)

/-! ### Whole logs -/

/-- What follows the records of a log is decoded as if it stood alone. -/
theorem decodeLog_encodeLog_append (host : Host) {groups : List Group}
    (h : ∀ group ∈ groups, group.Fits) (rest : Bytes) :
    decodeLog host (encodeLog host groups ++ rest) =
      (decodeLog host rest).map fun result =>
        { batches := groups.map Group.decoded ++ result.batches
          validBytes := (encodeLog host groups).length + result.validBytes } := by
  rw [decodeLog_eq_scan, decodeLog_eq_scan, encodeLog,
    FrameScan.scan_frames _ _ Group.decoded groups fun g hg => isFrame_encode host (h g hg)]
  cases scan (recordParser host) rest <;> rfl

@[simp] theorem decodeLog_nil (host : Host) : decodeLog host [] = .ok {} := by
  rw [decodeLog_eq_scan, FrameScan.scan_nil]
  rfl

/-- Decoding the log of a list of groups returns the groups: one batch for each record, in order,
with the record's base sequence number and the entries of its batches. -/
theorem decodeLog_encodeLog (host : Host) (groups : List Group)
    (h : ∀ group ∈ groups, group.Fits) :
    decodeLog host (encodeLog host groups) =
      .ok { batches := groups.map Group.decoded
            validBytes := (encodeLog host groups).length } := by
  have := decodeLog_encodeLog_append host h []
  simpa [Except.map] using this

theorem decodeLog_encodeLog_put_delete :
    let groups : List Group := [.put 1 [] [], ⟨2, [.put .new [97] [49], .delete .new [97]]⟩]
    (∀ group ∈ groups, group.Fits) ∧ decodeLog .sample (encodeLog .sample groups) =
      .ok { batches := groups.map Group.decoded
            validBytes := (encodeLog .sample groups).length } :=
  ⟨by decide, decodeLog_encodeLog _ _ (by decide)⟩

end StorageEngine.Wal
