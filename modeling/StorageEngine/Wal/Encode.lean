import StorageEngine.WriteBatch
import StorageEngine.Wal.Crc

/-! The contiguous encoder of `wal.cc`.  `encodeBatchInto` appends a record header with room for the
checksum and the length, the batch header, and the entries, and then overwrites the two fields.
`encodeBatchInto_eq` gives the record in closed form: `frame` around `payloadOf`. -/

namespace StorageEngine.Wal

open LittleEndian (bytes)

def kBatchRecord : Byte := 1#8

def kRecordHeaderSize : Nat := 4 + 4 + 1

def kBatchHeaderSize : Nat := 8 + 4

def kEntryHeaderSize : Nat := 1 + 4 + 4

def putBytes (out bytes : Bytes) : Bytes := out ++ bytes

/-- The count is a `uint32_t`, and so is each summand. -/
def countEntries (batches : List WriteBatch) : BitVec 32 :=
  batches.foldl (fun count batch => count + BitVec.ofNat 32 batch.entries.length) 0#32

def encodedBatchSize (batches : List WriteBatch) : Nat :=
  batches.foldl (fun size batch =>
    batch.entries.foldl (fun size entry =>
      size + (kEntryHeaderSize + entry.key.length + entry.value.length)) size)
    (kRecordHeaderSize + kBatchHeaderSize)

def encodeEntry (record : Bytes) (entry : Entry) : Bytes :=
  let record := record ++ [entry.type.toByte]
  let record := appendFixed32LE record (BitVec.ofNat 32 entry.key.length)
  let record := appendFixed32LE record (BitVec.ofNat 32 entry.value.length)
  let record := putBytes record entry.key
  putBytes record entry.value

/-- The record of `batches`, in a buffer whose previous contents are cleared. -/
def encodeBatchInto (host : Host) (baseSequence : BitVec 64) (batches : List WriteBatch)
    (_record : Bytes) : Bytes :=
  let record : Bytes := []
  let record := appendFixed32LE record 0#32
  let record := appendFixed32LE record 0#32
  let record := record ++ [kBatchRecord]
  let payloadOffset := record.length
  let record := appendFixed64LE record baseSequence
  let record := appendFixed32LE record (countEntries batches)
  let record := batches.foldl (fun record batch => batch.entries.foldl encodeEntry record) record
  let payload := record.drop payloadOffset
  let record := writeFixed32LE record 0 (crc32C host payload)
  writeFixed32LE record 4 (BitVec.ofNat 32 payload.length)

/-! ### The format -/

def groupEntries (batches : List WriteBatch) : List Entry := batches.flatMap WriteBatch.entries

def entryHeader (entry : Entry) : Bytes :=
  entry.type.toByte :: (bytes 4 (BitVec.ofNat 32 entry.key.length) ++
    bytes 4 (BitVec.ofNat 32 entry.value.length))

def entryBytes (entry : Entry) : Bytes := entryHeader entry ++ entry.key ++ entry.value

def batchHeader (baseSequence : BitVec 64) (count : BitVec 32) : Bytes :=
  bytes 8 baseSequence ++ bytes 4 count

def payloadOf (baseSequence : BitVec 64) (count : BitVec 32) (entries : List Entry) : Bytes :=
  batchHeader baseSequence count ++ entries.flatMap entryBytes

/-- A payload behind its header: checksum, length, and record type. -/
def frame (host : Host) (payload : Bytes) : Bytes :=
  bytes 4 (crc32C host payload) ++ bytes 4 (BitVec.ofNat 32 payload.length) ++ [kBatchRecord] ++
    payload

@[simp] theorem groupEntries_nil : groupEntries [] = [] := rfl

@[simp] theorem groupEntries_append (as bs : List WriteBatch) :
    groupEntries (as ++ bs) = groupEntries as ++ groupEntries bs := by simp [groupEntries]

@[simp] theorem length_entryHeader (entry : Entry) :
    (entryHeader entry).length = kEntryHeaderSize := by
  simp [entryHeader, kEntryHeaderSize]

theorem length_entryBytes (entry : Entry) :
    (entryBytes entry).length = kEntryHeaderSize + entry.key.length + entry.value.length := by
  simp [entryBytes]; omega

@[simp] theorem length_batchHeader (baseSequence : BitVec 64) (count : BitVec 32) :
    (batchHeader baseSequence count).length = kBatchHeaderSize := by
  simp [batchHeader, kBatchHeaderSize]

theorem length_payloadOf (baseSequence : BitVec 64) (count : BitVec 32) (entries : List Entry) :
    (payloadOf baseSequence count entries).length =
      kBatchHeaderSize + (entries.flatMap entryBytes).length := by
  simp [payloadOf]

@[simp] theorem length_frame (host : Host) (payload : Bytes) :
    (frame host payload).length = kRecordHeaderSize + payload.length := by
  simp [frame, kRecordHeaderSize]; omega

theorem length_flatMap_entryBytes (entries : List Entry) :
    kEntryHeaderSize * entries.length ≤ (entries.flatMap entryBytes).length := by
  induction entries with
  | nil => simp
  | cons entry entries ih =>
    simp only [List.flatMap_cons, List.length_append, List.length_cons, length_entryBytes]
    rw [Nat.mul_add]
    omega

/-! ### The encoder in closed form -/

theorem foldl_batches {α : Type} (f : α → Entry → α) (batches : List WriteBatch) (init : α) :
    batches.foldl (fun acc batch => batch.entries.foldl f acc) init =
      (groupEntries batches).foldl f init := by
  rw [groupEntries, List.foldl_flatMap]

theorem foldl_entryCount {w : Nat} (batches : List WriteBatch) (count : BitVec w) :
    batches.foldl (fun count batch => count + BitVec.ofNat w batch.entries.length) count =
      count + BitVec.ofNat w (groupEntries batches).length := by
  induction batches generalizing count with
  | nil => simp
  | cons batch batches ih =>
    rw [List.foldl_cons, ih, show groupEntries (batch :: batches) =
      batch.entries ++ groupEntries batches by rfl, List.length_append, BitVec.ofNat_add,
      BitVec.add_assoc]

theorem countEntries_eq (batches : List WriteBatch) :
    countEntries batches = BitVec.ofNat 32 (groupEntries batches).length := by
  rw [countEntries, foldl_entryCount, BitVec.zero_add]

theorem encodedBatchSize_eq (batches : List WriteBatch) :
    encodedBatchSize batches = kRecordHeaderSize + kBatchHeaderSize +
      ((groupEntries batches).flatMap entryBytes).length := by
  rw [encodedBatchSize, foldl_batches]
  generalize kRecordHeaderSize + kBatchHeaderSize = size
  induction groupEntries batches generalizing size with
  | nil => simp
  | cons entry entries ih =>
    rw [List.foldl_cons, ih, List.flatMap_cons, List.length_append, length_entryBytes]
    omega

theorem foldl_encodeEntry (entries : List Entry) (record : Bytes) :
    entries.foldl encodeEntry record = record ++ entries.flatMap entryBytes := by
  induction entries generalizing record with
  | nil => simp
  | cons entry entries ih =>
    rw [List.foldl_cons, ih]
    simp [encodeEntry, entryBytes, entryHeader, putBytes, appendFixed32LE, appendFixedLE_eq]

theorem encodeBatchInto_eq (host : Host) (baseSequence : BitVec 64) (batches : List WriteBatch)
    (record : Bytes) : encodeBatchInto host baseSequence batches record =
      frame host (payloadOf baseSequence (countEntries batches) (groupEntries batches)) := by
  generalize hpayload :
    payloadOf baseSequence (countEntries batches) (groupEntries batches) = payload
  -- The record before its checksum and length are patched.
  have hbody : batches.foldl (fun record batch => batch.entries.foldl encodeEntry record)
      (appendFixed32LE (appendFixed64LE (appendFixed32LE (appendFixed32LE [] 0#32) 0#32 ++
        [kBatchRecord]) baseSequence) (countEntries batches)) =
      bytes 4 0#32 ++ bytes 4 0#32 ++ [kBatchRecord] ++ payload := by
    rw [foldl_batches, foldl_encodeEntry, ← hpayload]
    simp [payloadOf, batchHeader, appendFixed32LE, appendFixed64LE, appendFixedLE_eq]
  simp only [encodeBatchInto, hbody]
  have hdrop : (bytes 4 0#32 ++ bytes 4 0#32 ++ [kBatchRecord] ++ payload).drop
      (appendFixed32LE (appendFixed32LE [] 0#32) 0#32 ++ [kBatchRecord]).length = payload := by
    rw [List.drop_left']
    simp [appendFixed32LE, appendFixedLE_eq]
  rw [hdrop, writeFixed32LE, writeFixed32LE, writeFixedLE_eq (by decide) _ 0 _ (by simp),
    writeFixedLE_eq (by decide) _ 4 _ (by simp; omega)]
  simp [frame, List.take_append, List.drop_append]

/-- The record of a group, whatever buffer it is encoded into. -/
def encodeRecord (host : Host) (baseSequence : BitVec 64) (batches : List WriteBatch) : Bytes :=
  encodeBatchInto host baseSequence batches []

theorem encodeBatchInto_eq_encodeRecord (host : Host) (baseSequence : BitVec 64)
    (batches : List WriteBatch) (record : Bytes) :
    encodeBatchInto host baseSequence batches record = encodeRecord host baseSequence batches := by
  rw [encodeRecord, encodeBatchInto_eq, encodeBatchInto_eq]

theorem length_encodeRecord (host : Host) (baseSequence : BitVec 64) (batches : List WriteBatch) :
    (encodeRecord host baseSequence batches).length = encodedBatchSize batches := by
  rw [encodeRecord, encodeBatchInto_eq, length_frame, length_payloadOf, encodedBatchSize_eq]
  omega

end StorageEngine.Wal
