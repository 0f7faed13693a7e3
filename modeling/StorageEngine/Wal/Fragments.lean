import Mathlib.Data.List.Basic
import StorageEngine.Lib.Splice
import StorageEngine.Wal.Encode

/-! The scattered encoder of `wal.cc`.  `encodeBatchFragmentsInto` writes the headers of a record
into one buffer and names the record's regions, in order, by `iovec`s: the headers in the buffer,
the keys and values in the batches.  The regions, read once the checksum and the length are in
place, are the record of the contiguous encoder. -/

namespace StorageEngine.Wal

open LittleEndian (bytes)

/-- Where an `iovec` points: into the buffer of headers, or at a key or value of a batch. -/
inductive IoBase where
  | fixed (offset : Nat)
  | data (bytes : Bytes)
  deriving DecidableEq, Repr

structure Iovec where
  base : IoBase
  len : Nat
  deriving DecidableEq, Repr

structure EncodedBatchFragments where
  fixed : Bytes := []
  iovecs : List Iovec := []
  size : Nat := 0
  deriving DecidableEq, Repr

def appendIovec (iovecs : List Iovec) (base : IoBase) (size : Nat) : List Iovec :=
  if size = 0 then iovecs else iovecs ++ [⟨base, size⟩]

structure FragmentLoop where
  fixed : Bytes
  iovecs : List Iovec
  crc : BitVec 32
  entryHeaderOffset : Nat

def fragmentEntry (s : FragmentLoop) (entry : Entry) : FragmentLoop :=
  let fixed := s.fixed.set s.entryHeaderOffset entry.type.toByte
  let fixed := writeFixed32LE fixed (s.entryHeaderOffset + 1) (BitVec.ofNat 32 entry.key.length)
  let fixed := writeFixed32LE fixed (s.entryHeaderOffset + 5) (BitVec.ofNat 32 entry.value.length)
  let entryHeaderBytes := (fixed.drop s.entryHeaderOffset).take kEntryHeaderSize
  let crc := extendCrc32cSoftware s.crc entryHeaderBytes
  let crc := extendCrc32cSoftware crc entry.key
  let crc := extendCrc32cSoftware crc entry.value
  let iovecs := appendIovec s.iovecs (.fixed s.entryHeaderOffset) kEntryHeaderSize
  let iovecs := appendIovec iovecs (.data entry.key) entry.key.length
  let iovecs := appendIovec iovecs (.data entry.value) entry.value.length
  { fixed, iovecs, crc, entryHeaderOffset := s.entryHeaderOffset + kEntryHeaderSize }

/-- The fragments of `batches`, in buffers whose previous contents are cleared. -/
def encodeBatchFragmentsInto (baseSequence : BitVec 64) (batches : List WriteBatch)
    (_encoded : EncodedBatchFragments) : EncodedBatchFragments :=
  let entryCount := countEntries batches
  let size := encodedBatchSize batches
  let fixed := List.replicate
    (kRecordHeaderSize + kBatchHeaderSize + entryCount.toNat * kEntryHeaderSize) 0#8
  let fixed := fixed.set 8 kBatchRecord
  let fixed := writeFixed64LE fixed kRecordHeaderSize baseSequence
  let fixed := writeFixed32LE fixed (kRecordHeaderSize + 8) entryCount
  let batchHeader := (fixed.drop kRecordHeaderSize).take kBatchHeaderSize
  let crc := extendCrc32cSoftware 0xffffffff#32 batchHeader
  let iovecs := appendIovec [] (.fixed 0) (kRecordHeaderSize + kBatchHeaderSize)
  let s := batches.foldl (fun s batch => batch.entries.foldl fragmentEntry s)
    { fixed, iovecs, crc, entryHeaderOffset := kRecordHeaderSize + kBatchHeaderSize }
  let fixed := writeFixed32LE s.fixed 0 (~~~s.crc)
  let fixed := writeFixed32LE fixed 4 (BitVec.ofNat 32 (size - kRecordHeaderSize))
  { fixed, iovecs := s.iovecs, size }

/-- The bytes of one region, with the buffer of headers as it is when they are read. -/
def regionBytes (fixed : Bytes) (iov : Iovec) : Bytes :=
  match iov.base with
  | .fixed offset => (fixed.drop offset).take iov.len
  | .data bytes => bytes.take iov.len

def materializeIovecs (fixed : Bytes) (iovecs : List Iovec) : Bytes :=
  iovecs.flatMap (regionBytes fixed)

/-! ### One entry -/

theorem materializeIovecs_append (fixed : Bytes) (as bs : List Iovec) :
    materializeIovecs fixed (as ++ bs) =
      materializeIovecs fixed as ++ materializeIovecs fixed bs := by
  simp [materializeIovecs]

theorem materializeIovecs_appendIovec (fixed : Bytes) (iovecs : List Iovec) (base : IoBase)
    (size : Nat) : materializeIovecs fixed (appendIovec iovecs base size) =
      materializeIovecs fixed iovecs ++ regionBytes fixed ⟨base, size⟩ := by
  unfold appendIovec
  split
  · next h => subst h; cases base <;> simp [regionBytes]
  · rw [materializeIovecs_append]
    simp [materializeIovecs]

theorem sum_len_appendIovec (iovecs : List Iovec) (base : IoBase) (size : Nat) :
    ((appendIovec iovecs base size).map Iovec.len).sum = (iovecs.map Iovec.len).sum + size := by
  unfold appendIovec
  split
  · next h => rw [h, Nat.add_zero]
  · simp

theorem writeFixed32LE_eq_splice (old : Bytes) {offset : Nat} (value : BitVec 32)
    (h : offset + 4 ≤ old.length) :
    writeFixed32LE old offset value = splice old offset (bytes 4 value) := by
  rw [writeFixed32LE, writeFixedLE_eq (by decide) _ _ _ h, splice]
  simp

theorem writeFixed64LE_eq_splice (old : Bytes) {offset : Nat} (value : BitVec 64)
    (h : offset + 8 ≤ old.length) :
    writeFixed64LE old offset value = splice old offset (bytes 8 value) := by
  rw [writeFixed64LE, writeFixedLE_eq (by decide) _ _ _ h, splice]
  simp

def entryIovecs (iovecs : List Iovec) (offset : Nat) (entry : Entry) : List Iovec :=
  appendIovec (appendIovec (appendIovec iovecs (.fixed offset) kEntryHeaderSize)
    (.data entry.key) entry.key.length) (.data entry.value) entry.value.length

theorem fragmentEntry_eq (s : FragmentLoop) (entry : Entry)
    (h : s.entryHeaderOffset + kEntryHeaderSize ≤ s.fixed.length) :
    fragmentEntry s entry =
      { fixed := splice s.fixed s.entryHeaderOffset (entryHeader entry)
        iovecs := entryIovecs s.iovecs s.entryHeaderOffset entry
        crc := extendCrc32cSoftware s.crc (entryBytes entry)
        entryHeaderOffset := s.entryHeaderOffset + kEntryHeaderSize } := by
  unfold kEntryHeaderSize at h
  -- The type and the two lengths are neighbouring stretches of the buffer.
  have hkey : writeFixed32LE (s.fixed.set s.entryHeaderOffset entry.type.toByte)
      (s.entryHeaderOffset + 1) (BitVec.ofNat 32 entry.key.length) =
      splice s.fixed s.entryHeaderOffset
        ([entry.type.toByte] ++ bytes 4 (BitVec.ofNat 32 entry.key.length)) := by
    rw [writeFixed32LE_eq_splice _ _ (by simp; omega), set_eq_splice _ _ (by omega)]
    exact splice_splice _ _ (by omega)
  have hfixed : writeFixed32LE (writeFixed32LE (s.fixed.set s.entryHeaderOffset entry.type.toByte)
      (s.entryHeaderOffset + 1) (BitVec.ofNat 32 entry.key.length)) (s.entryHeaderOffset + 5)
      (BitVec.ofNat 32 entry.value.length) =
      splice s.fixed s.entryHeaderOffset (entryHeader entry) := by
    rw [hkey, writeFixed32LE_eq_splice _ _ (by rw [length_splice (by simp; omega)]; omega)]
    have := splice_splice ([entry.type.toByte] ++ bytes 4 (BitVec.ofNat 32 entry.key.length))
      (bytes 4 (BitVec.ofNat 32 entry.value.length))
      (show s.entryHeaderOffset ≤ s.fixed.length by omega)
    simpa [entryHeader] using this
  have hheader : ((splice s.fixed s.entryHeaderOffset (entryHeader entry)).drop
      s.entryHeaderOffset).take kEntryHeaderSize = entryHeader entry := by
    have := drop_take_splice (entryHeader entry)
      (show s.entryHeaderOffset ≤ s.fixed.length by omega)
    simpa using this
  have hcrc : extendCrc32cSoftware s.crc (entryBytes entry) =
      extendCrc32cSoftware (extendCrc32cSoftware (extendCrc32cSoftware s.crc (entryHeader entry))
        entry.key) entry.value := by
    simp [extendCrc32cSoftware, entryBytes]
  simp only [fragmentEntry, hfixed, hheader, hcrc, entryIovecs]

/-! ### All entries -/

/-- The regions of `entries` whose headers stand one after another from `offset` on. -/
def entriesIovecs (iovecs : List Iovec) (offset : Nat) : List Entry → List Iovec
  | [] => iovecs
  | entry :: entries =>
    entriesIovecs (entryIovecs iovecs offset entry) (offset + kEntryHeaderSize) entries

theorem length_flatMap_entryHeader (entries : List Entry) :
    (entries.flatMap entryHeader).length = kEntryHeaderSize * entries.length := by
  induction entries with
  | nil => rfl
  | cons entry entries ih => simp [ih, Nat.mul_add]; omega

theorem foldl_fragmentEntry (entries : List Entry) (s : FragmentLoop)
    (h : s.entryHeaderOffset + kEntryHeaderSize * entries.length ≤ s.fixed.length) :
    entries.foldl fragmentEntry s =
      { fixed := splice s.fixed s.entryHeaderOffset (entries.flatMap entryHeader)
        iovecs := entriesIovecs s.iovecs s.entryHeaderOffset entries
        crc := extendCrc32cSoftware s.crc (entries.flatMap entryBytes)
        entryHeaderOffset := s.entryHeaderOffset + kEntryHeaderSize * entries.length } := by
  induction entries generalizing s with
  | nil => simp [splice, entriesIovecs, extendCrc32cSoftware]
  | cons entry entries ih =>
    simp only [List.length_cons, Nat.mul_add, Nat.mul_one] at h
    have hfirst : s.entryHeaderOffset + kEntryHeaderSize ≤ s.fixed.length := by omega
    have hlen : s.entryHeaderOffset + (entryHeader entry).length ≤ s.fixed.length := by
      simpa using hfirst
    rw [List.foldl_cons, fragmentEntry_eq s entry hfirst,
      ih _ (by simp only [length_splice hlen]; omega)]
    have hjoin := splice_splice (entryHeader entry) (entries.flatMap entryHeader)
      (show s.entryHeaderOffset ≤ s.fixed.length by omega)
    rw [length_entryHeader] at hjoin
    simp only [hjoin, List.flatMap_cons, entriesIovecs, extendCrc32cSoftware, List.foldl_append,
      List.length_cons]
    congr 1
    rw [Nat.mul_add]
    omega

/-- Read against a buffer that holds the headers of `entries` from `offset` on, their regions are
their bytes. -/
theorem materializeIovecs_entriesIovecs (fixed : Bytes) (entries : List Entry)
    (iovecs : List Iovec) (offset : Nat)
    (h : ∃ rest, fixed.drop offset = entries.flatMap entryHeader ++ rest) :
    materializeIovecs fixed (entriesIovecs iovecs offset entries) =
      materializeIovecs fixed iovecs ++ entries.flatMap entryBytes := by
  induction entries generalizing iovecs offset with
  | nil => simp [entriesIovecs]
  | cons entry entries ih =>
    obtain ⟨rest, hrest⟩ := h
    rw [List.flatMap_cons, List.append_assoc] at hrest
    have hnext : fixed.drop (offset + kEntryHeaderSize) = entries.flatMap entryHeader ++ rest := by
      rw [← List.drop_drop, hrest, List.drop_left' (by simp)]
    rw [entriesIovecs, ih _ _ ⟨rest, hnext⟩, entryIovecs]
    have hheader : (fixed.drop offset).take kEntryHeaderSize = entryHeader entry := by
      rw [hrest, List.take_left' (by simp)]
    simp [materializeIovecs_appendIovec, regionBytes, hheader, entryBytes]

theorem sum_len_entriesIovecs (entries : List Entry) (iovecs : List Iovec) (offset : Nat) :
    ((entriesIovecs iovecs offset entries).map Iovec.len).sum =
      (iovecs.map Iovec.len).sum + (entries.flatMap entryBytes).length := by
  induction entries generalizing iovecs offset with
  | nil => simp [entriesIovecs]
  | cons entry entries ih =>
    rw [entriesIovecs, ih, entryIovecs, sum_len_appendIovec, sum_len_appendIovec,
      sum_len_appendIovec, List.flatMap_cons, List.length_append, length_entryBytes]
    omega

/-! ### The record -/

theorem writeFixed32LE_middle (front middle rest : Bytes) (offset : Nat) (value : BitVec 32)
    (hfront : front.length = offset) (hmiddle : middle.length = 4) :
    writeFixed32LE (front ++ middle ++ rest) offset value = front ++ bytes 4 value ++ rest := by
  rw [writeFixed32LE_eq_splice _ _ (by simp; omega),
    splice_middle rest hfront (by simpa using hmiddle)]

theorem writeFixed64LE_middle (front middle rest : Bytes) (offset : Nat) (value : BitVec 64)
    (hfront : front.length = offset) (hmiddle : middle.length = 8) :
    writeFixed64LE (front ++ middle ++ rest) offset value = front ++ bytes 8 value ++ rest := by
  rw [writeFixed64LE_eq_splice _ _ (by simp; omega),
    splice_middle rest hfront (by simpa using hmiddle)]

/-- The buffer of headers: the header of the record, that of the batch, and `headers`. -/
def headerBuffer (crc length : BitVec 32) (batchHeader headers : Bytes) : Bytes :=
  bytes 4 crc ++ bytes 4 length ++ [kBatchRecord] ++ batchHeader ++ headers

section HeaderBuffer

variable {header : Bytes} (hheader : header.length = kBatchHeaderSize)

include hheader

theorem drop_take_headerBuffer (crc length : BitVec 32) (headers : Bytes) :
    ((headerBuffer crc length header headers).drop kRecordHeaderSize).take kBatchHeaderSize =
      header := by
  rw [headerBuffer, List.append_assoc _ header, List.drop_left' (by simp [kRecordHeaderSize]),
    List.take_left' hheader]

theorem splice_headerBuffer (crc length : BitVec 32) {old headers : Bytes}
    (hlen : old.length = headers.length) :
    splice (headerBuffer crc length header old) (kRecordHeaderSize + kBatchHeaderSize) headers =
      headerBuffer crc length header headers := by
  have hfront : (bytes 4 crc ++ bytes 4 length ++ [kBatchRecord] ++ header).length =
      kRecordHeaderSize + kBatchHeaderSize := by
    simp [hheader, kRecordHeaderSize]
    omega
  simpa [headerBuffer] using splice_middle [] hfront hlen

end HeaderBuffer

theorem fixed_before_loop (baseSequence : BitVec 64) (count : BitVec 32) (n : Nat) :
    writeFixed32LE (writeFixed64LE ((List.replicate (kRecordHeaderSize + kBatchHeaderSize + n)
      0#8).set 8 kBatchRecord) kRecordHeaderSize baseSequence) (kRecordHeaderSize + 8) count =
      headerBuffer 0#32 0#32 (batchHeader baseSequence count) (List.replicate n 0#8) := by
  have hzero : List.replicate (kRecordHeaderSize + kBatchHeaderSize + n) 0#8 =
      (bytes 4 0#32 ++ bytes 4 0#32) ++ [0#8] ++ (bytes 8 0#64 ++ (bytes 4 0#32 ++
        List.replicate n 0#8)) := by
    rw [List.replicate_add]
    rfl
  have hbase := writeFixed64LE_middle (bytes 4 0#32 ++ bytes 4 0#32 ++ [kBatchRecord])
    (bytes 8 0#64) (bytes 4 0#32 ++ List.replicate n 0#8) kRecordHeaderSize baseSequence
    (by rfl) (by rfl)
  have hcount := writeFixed32LE_middle
    (bytes 4 0#32 ++ bytes 4 0#32 ++ [kBatchRecord] ++ bytes 8 baseSequence) (bytes 4 0#32)
    (List.replicate n 0#8) (kRecordHeaderSize + 8) count (by simp [kRecordHeaderSize]) (by rfl)
  rw [hzero, set_eq_splice _ _ (by simp; omega), splice_middle _ (by rfl) (by rfl)]
  simp only [List.append_assoc] at hbase hcount ⊢
  rw [hbase, hcount]
  simp [headerBuffer, batchHeader]

theorem fixed_after_loop (crc length : BitVec 32) (header headers : Bytes) :
    writeFixed32LE (writeFixed32LE (headerBuffer 0#32 0#32 header headers) 0 crc) 4 length =
      headerBuffer crc length header headers := by
  have h0 := writeFixed32LE_middle [] (bytes 4 0#32)
    (bytes 4 0#32 ++ [kBatchRecord] ++ header ++ headers) 0 crc (by rfl) (by rfl)
  have h4 := writeFixed32LE_middle (bytes 4 crc) (bytes 4 0#32)
    ([kBatchRecord] ++ header ++ headers) 4 length (by simp) (by rfl)
  simp only [headerBuffer, List.nil_append, List.append_assoc] at h0 h4 ⊢
  rw [h0, h4]

/-- The checksum over the fragments is that of the payload. -/
theorem crc_fragments (host : Host) (baseSequence : BitVec 64) (count : BitVec 32)
    (entries : List Entry) :
    ~~~extendCrc32cSoftware (extendCrc32cSoftware 0xffffffff#32 (batchHeader baseSequence count))
      (entries.flatMap entryBytes) = crc32C host (payloadOf baseSequence count entries) := by
  rw [crc32C_eq_feed, ← extendCrc32cSoftware_eq_feed, payloadOf]
  simp [extendCrc32cSoftware]

theorem headerBuffer_encodeRecord (host : Host) (baseSequence : BitVec 64)
    (batches : List WriteBatch) (headers : Bytes) :
    let payload := payloadOf baseSequence (countEntries batches) (groupEntries batches)
    headerBuffer (crc32C host payload) (BitVec.ofNat 32 payload.length)
        (batchHeader baseSequence (countEntries batches)) headers =
      (encodeRecord host baseSequence batches).take (kRecordHeaderSize + kBatchHeaderSize) ++
        headers := by
  intro payload
  have hrecord : encodeRecord host baseSequence batches =
      (bytes 4 (crc32C host payload) ++ bytes 4 (BitVec.ofNat 32 payload.length) ++
        [kBatchRecord] ++ batchHeader baseSequence (countEntries batches)) ++
        (groupEntries batches).flatMap entryBytes := by
    rw [encodeRecord, encodeBatchInto_eq, frame, List.append_assoc _ (batchHeader _ _)]
    rfl
  rw [headerBuffer, hrecord, List.take_left' (by simp [kRecordHeaderSize]; omega)]

theorem encodeBatchFragmentsInto_eq (host : Host) (baseSequence : BitVec 64)
    (batches : List WriteBatch) (encoded : EncodedBatchFragments)
    (h : (groupEntries batches).length < 2 ^ 32) :
    encodeBatchFragmentsInto baseSequence batches encoded =
      { fixed := (encodeRecord host baseSequence batches).take
          (kRecordHeaderSize + kBatchHeaderSize) ++ (groupEntries batches).flatMap entryHeader
        iovecs := entriesIovecs [⟨.fixed 0, kRecordHeaderSize + kBatchHeaderSize⟩]
          (kRecordHeaderSize + kBatchHeaderSize) (groupEntries batches)
        size := encodedBatchSize batches } := by
  have hcount : (countEntries batches).toNat = (groupEntries batches).length := by
    rw [countEntries_eq, BitVec.toNat_ofNat, Nat.mod_eq_of_lt h]
  have hsize : encodedBatchSize batches - kRecordHeaderSize =
      (payloadOf baseSequence (countEntries batches) (groupEntries batches)).length := by
    rw [encodedBatchSize_eq, length_payloadOf]
    omega
  have hheader := length_batchHeader baseSequence (countEntries batches)
  -- The zeros behind the batch header make room for the headers of the entries.
  have hloop := foldl_fragmentEntry (groupEntries batches)
    { fixed := headerBuffer 0#32 0#32 (batchHeader baseSequence (countEntries batches))
        (List.replicate ((groupEntries batches).length * kEntryHeaderSize) 0#8)
      iovecs := appendIovec [] (.fixed 0) (kRecordHeaderSize + kBatchHeaderSize)
      crc := extendCrc32cSoftware 0xffffffff#32 (batchHeader baseSequence (countEntries batches))
      entryHeaderOffset := kRecordHeaderSize + kBatchHeaderSize }
    (by simp [headerBuffer, kRecordHeaderSize, kBatchHeaderSize, kEntryHeaderSize]; omega)
  rw [splice_headerBuffer hheader _ _
    (by rw [length_flatMap_entryHeader, List.length_replicate, Nat.mul_comm])] at hloop
  simp only [encodeBatchFragmentsInto, fixed_before_loop, foldl_batches, hcount, hsize,
    drop_take_headerBuffer hheader, hloop, crc_fragments host, fixed_after_loop,
    headerBuffer_encodeRecord]
  rfl

/-- The regions of fewer than `2^32` entries, read after the encoder has returned, are the record
of the contiguous encoding. -/
theorem materializeIovecs_encodeBatchFragmentsInto (host : Host) (baseSequence : BitVec 64)
    (batches : List WriteBatch) (encoded : EncodedBatchFragments)
    (h : (groupEntries batches).length < 2 ^ 32) :
    materializeIovecs (encodeBatchFragmentsInto baseSequence batches encoded).fixed
      (encodeBatchFragmentsInto baseSequence batches encoded).iovecs =
      encodeRecord host baseSequence batches := by
  generalize hrecord : encodeRecord host baseSequence batches = record
  have hfront : (record.take (kRecordHeaderSize + kBatchHeaderSize)).length =
      kRecordHeaderSize + kBatchHeaderSize := by
    rw [List.length_take, ← hrecord, length_encodeRecord, encodedBatchSize_eq]
    omega
  have hrest : record.drop (kRecordHeaderSize + kBatchHeaderSize) =
      (groupEntries batches).flatMap entryBytes := by
    rw [← hrecord, encodeRecord, encodeBatchInto_eq, frame, payloadOf, ← List.append_assoc,
      List.drop_left']
    simp [kRecordHeaderSize, kBatchHeaderSize]
  rw [encodeBatchFragmentsInto_eq host baseSequence batches encoded h, hrecord,
    materializeIovecs_entriesIovecs _ _ _ _ ⟨[], by rw [List.drop_left' hfront]; simp⟩]
  simp only [materializeIovecs, List.flatMap_cons, List.flatMap_nil, List.append_nil, regionBytes,
    List.drop_zero, List.take_left' hfront]
  rw [← hrest, List.take_append_drop]

/-- The two encoders agree, whatever their buffers held before: the regions are the record, and the
three sizes are its length. -/
theorem fragments_eq_contiguous (host : Host) (baseSequence : BitVec 64)
    (batches : List WriteBatch) (encoded : EncodedBatchFragments) (record : Bytes)
    (h : (groupEntries batches).length < 2 ^ 32) :
    let fragments := encodeBatchFragmentsInto baseSequence batches encoded
    let contiguous := encodeBatchInto host baseSequence batches record
    materializeIovecs fragments.fixed fragments.iovecs = contiguous ∧
      fragments.size = contiguous.length ∧ encodedBatchSize batches = contiguous.length ∧
      (fragments.iovecs.map Iovec.len).sum = contiguous.length := by
  intro fragments contiguous
  have hcontiguous : contiguous = encodeRecord host baseSequence batches :=
    encodeBatchInto_eq_encodeRecord host baseSequence batches record
  have hlen : encodedBatchSize batches = contiguous.length := by
    rw [hcontiguous, length_encodeRecord]
  have hfragments := encodeBatchFragmentsInto_eq host baseSequence batches encoded h
  refine ⟨?_, ?_, hlen, ?_⟩
  · rw [hcontiguous]
    exact materializeIovecs_encodeBatchFragmentsInto host baseSequence batches encoded h
  · rw [← hlen]
    exact congrArg EncodedBatchFragments.size hfragments
  · rw [← hlen, encodedBatchSize_eq, show fragments = _ from hfragments]
    simp [sum_len_entriesIovecs]

/-- A key without a value, a deletion, and an empty batch between them, in buffers that were used
before. -/
theorem fragments_eq_contiguous_empty_value :
    let batches := [WriteBatch.new.put [1#8] [], .new, WriteBatch.new.delete []]
    let fragments := encodeBatchFragmentsInto 7#64 batches ⟨[9#8], [⟨.fixed 0, 1⟩], 1⟩
    let contiguous := encodeBatchInto Host.sample 7#64 batches [9#8]
    (groupEntries batches).length < 2 ^ 32 ∧
      materializeIovecs fragments.fixed fragments.iovecs = contiguous ∧
      fragments.size = contiguous.length ∧ encodedBatchSize batches = contiguous.length ∧
      (fragments.iovecs.map Iovec.len).sum = contiguous.length :=
  ⟨by decide, fragments_eq_contiguous Host.sample 7#64 _ _ _ (by decide)⟩

end StorageEngine.Wal
