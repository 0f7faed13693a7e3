import StorageEngine.Io.Executor
import StorageEngine.MemTable.Sequential
import StorageEngine.Wal.Fragments
import StorageEngine.Wal.RoundTrip

/-! The database of `db.cc` without its queue: `writeGroup`, which appends the record of a group to
the log and applies its batches, and `recover`, which replays the log and cuts off a torn tail.
Both run against the bytes of the file and the kernel's answers to the calls they make. -/

namespace StorageEngine

open Wal Io

def kIovMax : Nat := 1024

theorem noUpdates (shard : Fin kShardCount) : (fun _ => [] : PendingUpdates) shard = [] := rfl

/-- `WriteGroupScratch`.  The lists of waiting updates are empty between calls. -/
structure WriteGroupScratch where
  batches : List WriteBatch := []
  memtableUpdates : PendingUpdates := fun _ => []
  fallbackRecord : Bytes := []
  updatesEmpty : ∀ shard, memtableUpdates shard = [] := by exact noUpdates

structure DB where
  walOffset : Nat := 0
  nextSequence : BitVec 64 := 1#64
  memtable : MemTable := .new
  walRecord : EncodedBatchFragments := {}
  writeScratch : WriteGroupScratch := {}

/-- What the kernel answers to the calls of `recover`: the error number of a failed `fstat` or
`ftruncate`, and the completions of the read and the sync. -/
structure RecoverIo where
  fstat : Option Int := none
  readv : Completion
  ftruncate : Option Int := none
  fdatasync : Completion := .done 0

/-- What `Open` meets before it recovers: the error number of a failed `open`, and the status of an
executor that could not be created. -/
structure OpenIo where
  openWal : Option Int := none
  create : Status := .Ok
  recover : RecoverIo

def stdMax (a b : BitVec 64) : BitVec 64 := if a < b then b else a

namespace DB

def applyScratch (host : Host) (db : DB) (baseSequence : BitVec 64) : DB :=
  let applied := db.memtable.applyBatches host db.writeScratch.batches baseSequence
    db.writeScratch.memtableUpdates
  { db with
    memtable := applied.1
    writeScratch :=
      { db.writeScratch with
        memtableUpdates := applied.2
        updatesEmpty := MemTable.scratch_applyBatches host _ _ _ _ } }

/-- The encoding of a group, scattered or, past `IOV_MAX` regions, contiguous. -/
def encodeGroup (host : Host) (db : DB) : DB :=
  let walRecord := encodeBatchFragmentsInto db.nextSequence db.writeScratch.batches db.walRecord
  if walRecord.iovecs.length > kIovMax then
    let fallbackRecord := encodeBatchInto host db.nextSequence db.writeScratch.batches
      db.writeScratch.fallbackRecord
    { db with
      walRecord :=
        { walRecord with
          iovecs := [⟨.data fallbackRecord, fallbackRecord.length⟩]
          size := fallbackRecord.length }
      writeScratch := { db.writeScratch with fallbackRecord } }
  else
    { db with walRecord }

def record (db : DB) : Bytes := materializeIovecs db.walRecord.fixed db.walRecord.iovecs

/-- The end of `writeGroup`, once the record is on disk. -/
def applyGroup (host : Host) (baseSequence entryCount : BitVec 64) (db : DB) : DB :=
  let db := db.applyScratch host baseSequence
  { db with
    walOffset := db.walOffset + db.walRecord.size
    nextSequence := db.nextSequence + entryCount }

def writeGroup (host : Host) (io : WriteIo) (batches : List WriteBatch) (file : Bytes) (db : DB) :
    Status × DB × Bytes :=
  let db := { db with writeScratch := { db.writeScratch with batches } }
  let entryCount := batches.foldl
    (fun count batch => count + BitVec.ofNat 64 batch.entries.length) 0#64
  let baseSequence := db.nextSequence
  let db := db.encodeGroup host
  let file := writeAt file db.walOffset (db.record.take io.written)
  let syncWrite := writevAndFDataSync host io.completion db.walRecord.size
  if !syncWrite.ok then
    (syncWrite, db, file)
  else
    (.Ok, db.applyGroup host baseSequence entryCount, file)

def raiseSequence (maxSequence : BitVec 64) (decoded : DecodedBatch) : BitVec 64 :=
  stdMax maxSequence (decoded.baseSequence + BitVec.ofNat 64 decoded.batch.entries.length)

def replayBatch (host : Host) (state : DB × BitVec 64) (decoded : DecodedBatch) : DB × BitVec 64 :=
  let (db, maxSequence) := state
  let db := { db with writeScratch := { db.writeScratch with batches := [decoded.batch] } }
  (db.applyScratch host decoded.baseSequence, raiseSequence maxSequence decoded)

def replay (host : Host) (db : DB) (decoded : DecodeResult) : DB :=
  let (db, maxSequence) := decoded.batches.foldl (replayBatch host) (db, 0#64)
  { db with
    nextSequence := stdMax db.nextSequence (maxSequence + 1#64)
    walOffset := decoded.validBytes }

def recover (host : Host) (io : RecoverIo) (file : Bytes) (db : DB) : Status × DB × Bytes :=
  match io.fstat with
  | some errno => (.ioError (errnoMessage host "fstat" errno), db, file)
  | none =>
    let db := { db with walOffset := file.length }
    if db.walOffset = 0 then
      (.Ok, db, file)
    else
      match readAt host io.readv with
      | .error status => (status, db, file)
      | .ok read =>
        let bytes := resize (readInto file (List.replicate db.walOffset 0#8) read) read
        match decodeLog host bytes with
        | .error status => (status, db, file)
        | .ok decoded =>
          let db := db.replay host decoded
          if db.walOffset ≠ bytes.length then
            match io.ftruncate with
            | some errno => (.ioError (errnoMessage host "truncate WAL" errno), db, file)
            | none =>
              let file := resize file db.walOffset
              let sync := fDataSync host io.fdatasync
              if !sync.ok then (sync, db, file) else (.Ok, db, file)
          else
            (.Ok, db, file)

/-- `DB::Open`, which starts from a new database and fails when recovery does. -/
def openDb (host : Host) (io : OpenIo) (file : Bytes) : Result DB × Bytes :=
  match io.openWal with
  | some errno => (.error (.ioError (errnoMessage host "open WAL" errno)), file)
  | none =>
    if !io.create.ok then
      (.error io.create, file)
    else
      let (status, db, file) := recover host io.recover file {}
      if !status.ok then (.error status, file) else (.ok db, file)

/-! ### The updates of a group -/

end DB

def Wal.DecodedBatch.updates (decoded : DecodedBatch) : List (Bytes × MemEntry) :=
  MemTable.stamp decoded.baseSequence decoded.batch.entries

/-- The updates that a group makes, one for each entry. -/
def Wal.Group.updates (group : Group) : List (Bytes × MemEntry) :=
  MemTable.stamp group.baseSequence group.entries

namespace DB

theorem slot_applyScratch (host : Host) (db : DB) (baseSequence : BitVec 64) :
    (db.applyScratch host baseSequence).memtable.slot host =
      KeyedUpdates.run (db.memtable.slot host)
        (MemTable.stamp baseSequence (groupEntries db.writeScratch.batches)) :=
  MemTable.slot_applyBatches host _ _ _ db.writeScratch.updatesEmpty

/-! ### Writing a group -/

section WriteGroup

variable (host : Host) (db : DB)

@[simp] theorem walOffset_encodeGroup : (db.encodeGroup host).walOffset = db.walOffset := by
  unfold encodeGroup; simp only; split <;> rfl

@[simp] theorem nextSequence_encodeGroup :
    (db.encodeGroup host).nextSequence = db.nextSequence := by
  unfold encodeGroup; simp only; split <;> rfl

@[simp] theorem memtable_encodeGroup : (db.encodeGroup host).memtable = db.memtable := by
  unfold encodeGroup; simp only; split <;> rfl

@[simp] theorem batches_encodeGroup :
    (db.encodeGroup host).writeScratch.batches = db.writeScratch.batches := by
  unfold encodeGroup; simp only; split <;> rfl

theorem size_encodeGroup : (db.encodeGroup host).walRecord.size =
    (encodeRecord host db.nextSequence db.writeScratch.batches).length := by
  unfold encodeGroup
  simp only
  split
  · rw [encodeBatchInto_eq_encodeRecord]
  · rw [length_encodeRecord]
    rfl

theorem record_encodeGroup (h : (groupEntries db.writeScratch.batches).length < 2 ^ 32) :
    (db.encodeGroup host).record =
      encodeRecord host db.nextSequence db.writeScratch.batches := by
  unfold encodeGroup record
  simp only
  split
  · simp [materializeIovecs, regionBytes, encodeBatchInto_eq_encodeRecord]
  · exact materializeIovecs_encodeBatchFragmentsInto host _ _ db.walRecord h

/-- The group that the next call of `writeGroup` commits. -/
def nextGroup (batches : List WriteBatch) : Group := ⟨db.nextSequence, batches⟩

def nextRecord (batches : List WriteBatch) : Bytes :=
  ({ db with writeScratch := { db.writeScratch with batches } }.encodeGroup host).record

theorem nextRecord_eq {batches : List WriteBatch} (h : (db.nextGroup batches).Fits) :
    db.nextRecord host batches = (db.nextGroup batches).encode host :=
  record_encodeGroup host _ h.entries_lt

def syncStatus (io : WriteIo) (batches : List WriteBatch) : Status :=
  writevAndFDataSync host io.completion ((db.nextGroup batches).encode host).length

structure Commits (group : Group) (after : DB) : Prop where
  walOffset : after.walOffset = db.walOffset + (group.encode host).length
  nextSequence : after.nextSequence = db.nextSequence + BitVec.ofNat 64 group.entries.length
  slot : after.memtable.slot host = KeyedUpdates.run (db.memtable.slot host) group.updates

variable {host db} {io : WriteIo} {batches : List WriteBatch} (file : Bytes)

/-- A group whose write or sync fails leaves the table and the counters alone; some of its bytes
may be in the file. -/
theorem writeGroup_failed (h : (db.syncStatus host io batches).ok = false) :
    ∃ after : DB, writeGroup host io batches file db =
        (db.syncStatus host io batches, after,
          writeAt file db.walOffset ((db.nextRecord host batches).take io.written)) ∧
      after.walOffset = db.walOffset ∧ after.nextSequence = db.nextSequence ∧
      after.memtable = db.memtable := by
  refine ⟨{ db with writeScratch := { db.writeScratch with batches } }.encodeGroup host, ?_,
    by simp, by simp, by simp⟩
  simp only [syncStatus, nextGroup, Group.encode] at h
  simp only [writeGroup, size_encodeGroup, h, walOffset_encodeGroup]
  rfl

/-- A group whose write and sync succeed is in the log and in the table.  Its record is shorter
than `2^31` bytes, because the write counted all of them. -/
theorem writeGroup_ok (h : (db.syncStatus host io batches).ok = true) :
    (db.nextGroup batches).Fits ∧ ∃ after : DB, writeGroup host io batches file db =
        (.Ok, after, writeAt file db.walOffset ((db.nextGroup batches).encode host)) ∧
      db.Commits host (db.nextGroup batches) after := by
  obtain ⟨-, hwritten, hsize, -⟩ := writevAndFDataSync_ok h
  have hfits : (db.nextGroup batches).Fits := by
    rw [Group.length_encode] at hsize
    unfold Group.Fits
    omega
  have hrecord : (db.nextRecord host batches).take io.written =
      (db.nextGroup batches).encode host := by
    rw [nextRecord_eq host db hfits, hwritten, List.take_length]
  refine ⟨hfits, ({ db with writeScratch := { db.writeScratch with batches } }.encodeGroup
    host).applyGroup host db.nextSequence (BitVec.ofNat 64 (groupEntries batches).length), ?_,
    ?_, ?_, ?_⟩
  · simp only [syncStatus, nextGroup, Group.encode] at h
    simp only [nextRecord] at hrecord
    simp only [writeGroup, size_encodeGroup, h, walOffset_encodeGroup, hrecord, foldl_entryCount,
      BitVec.zero_add]
    rfl
  · simp [applyGroup, applyScratch, size_encodeGroup, nextGroup, Group.encode]
  · simp [applyGroup, applyScratch, nextGroup, Group.entries]
  · have := slot_applyScratch host
      ({ db with writeScratch := { db.writeScratch with batches } }.encodeGroup host)
      db.nextSequence
    rw [memtable_encodeGroup, batches_encodeGroup] at this
    exact this

theorem status_writeGroup :
    (writeGroup host io batches file db).1 = db.syncStatus host io batches := by
  cases h : (db.syncStatus host io batches).ok with
  | false =>
    obtain ⟨after, hwrite, -⟩ := writeGroup_failed file h
    rw [hwrite]
  | true =>
    obtain ⟨-, after, hwrite, -⟩ := writeGroup_ok file h
    rw [hwrite]
    exact (writevAndFDataSync_ok h).1.symm

theorem length_iovecs_encodeGroup (host : Host) (db : DB) :
    (db.encodeGroup host).walRecord.iovecs.length ≤ kIovMax := by
  unfold encodeGroup
  simp only
  split
  · exact show 1 ≤ kIovMax by decide
  · next hfew => exact Nat.le_of_not_lt hfew

/-- The call leaves the iovecs that it handed to the kernel in the database. -/
theorem walRecord_writeGroup : (writeGroup host io batches file db).2.1.walRecord =
    ({ db with writeScratch := { db.writeScratch with batches } }.encodeGroup host).walRecord := by
  unfold writeGroup
  simp only
  split <;> rfl

/-- An acknowledged group was handed to the kernel in at most `IOV_MAX` regions.  What they hold is
written at the end of the log and is the record of the group, and the record stores the group
without loss. -/
theorem acknowledged_group_lossless (host : Host) (io : WriteIo) (batches : List WriteBatch)
    (file : Bytes) (db : DB) (h : (writeGroup host io batches file db).1.ok = true) :
    let handed := (writeGroup host io batches file db).2.1.walRecord
    let record := materializeIovecs handed.fixed handed.iovecs
    handed.iovecs.length ≤ kIovMax ∧ handed.size = record.length ∧
      (writeGroup host io batches file db).2.2 = writeAt file db.walOffset record ∧
      record = encodeRecord host db.nextSequence batches ∧
      (db.nextGroup batches).Lossless ∧
      decodeLog host record =
        .ok { batches := [(db.nextGroup batches).decoded], validBytes := record.length } := by
  rw [status_writeGroup] at h
  obtain ⟨hfits, after, hwrite, -⟩ := writeGroup_ok file h
  have hdecode := decodeLog_encodeLog_append host (List.forall_mem_singleton.mpr hfits) []
  rw [decodeLog_nil, encodeLog_singleton, List.append_nil] at hdecode
  intro handed record
  have hhanded : handed =
      ({ db with writeScratch := { db.writeScratch with batches } }.encodeGroup host).walRecord :=
    walRecord_writeGroup file
  have hrecord : record = (db.nextGroup batches).encode host := by
    simp only [record, hhanded]
    exact nextRecord_eq host db hfits
  refine ⟨?_, ?_, ?_, hrecord, hfits.lossless, ?_⟩
  · rw [hhanded]
    exact length_iovecs_encodeGroup host _
  · rw [hhanded, size_encodeGroup, hrecord]
    rfl
  · rw [hwrite, hrecord]
  · rw [hrecord, hdecode]
    simp [Except.map]

theorem acknowledged_group_lossless_put :
    let batches := [WriteBatch.new.put [97] [49], WriteBatch.new.delete []]
    let outcome := writeGroup .sample (.success 41) batches [] {}
    let record := materializeIovecs outcome.2.1.walRecord.fixed outcome.2.1.walRecord.iovecs
    outcome.1.ok = true ∧ record.length = 41 ∧ outcome.2.2 = writeAt [] 0 record ∧
      decodeLog .sample record =
        .ok { batches := [(({} : DB).nextGroup batches).decoded]
              validBytes := record.length } := by
  intro batches outcome record
  have hok : outcome.1.ok = true := by decide +kernel
  obtain ⟨-, -, hfile, -, -, hdecode⟩ :=
    acknowledged_group_lossless .sample (.success 41) batches [] {} hok
  exact ⟨hok, by decide +kernel, hfile, hdecode⟩

end WriteGroup

/-! ### Recovery -/

/-- The greatest end of the sequence ranges of the decoded batches. -/
def maxSequence (batches : List DecodedBatch) : BitVec 64 := batches.foldl raiseSequence 0#64

theorem foldl_replayBatch (host : Host) (batches : List DecodedBatch) (db : DB)
    (max : BitVec 64) :
    (batches.foldl (replayBatch host) (db, max)).1.memtable.slot host =
        KeyedUpdates.run (db.memtable.slot host) (batches.flatMap DecodedBatch.updates) ∧
      (batches.foldl (replayBatch host) (db, max)).1.nextSequence = db.nextSequence ∧
      (batches.foldl (replayBatch host) (db, max)).2 = batches.foldl raiseSequence max := by
  induction batches generalizing db max with
  | nil => exact ⟨rfl, rfl, rfl⟩
  | cons decoded batches ih =>
    obtain ⟨hslot, hnext, hmax⟩ := ih (replayBatch host (db, max) decoded).1
      (replayBatch host (db, max) decoded).2
    refine ⟨?_, hnext, hmax⟩
    rw [List.foldl_cons, List.flatMap_cons, KeyedUpdates.run_append, hslot]
    congr 1
    have := slot_applyScratch host
      { db with writeScratch := { db.writeScratch with batches := [decoded.batch] } }
      decoded.baseSequence
    simpa [groupEntries, replayBatch, DecodedBatch.updates] using this

theorem slot_replay (host : Host) (db : DB) (decoded : DecodeResult) :
    (db.replay host decoded).memtable.slot host =
      KeyedUpdates.run (db.memtable.slot host) (decoded.batches.flatMap DecodedBatch.updates) :=
  (foldl_replayBatch host decoded.batches db 0#64).1

theorem nextSequence_replay (host : Host) (db : DB) (decoded : DecodeResult) :
    (db.replay host decoded).nextSequence =
      stdMax db.nextSequence (maxSequence decoded.batches + 1#64) := by
  obtain ⟨-, hnext, hmax⟩ := foldl_replayBatch host decoded.batches db 0#64
  simp only [replay, hnext, hmax]
  rfl

@[simp] theorem walOffset_replay (host : Host) (db : DB) (decoded : DecodeResult) :
    (db.replay host decoded).walOffset = decoded.validBytes := rfl

theorem recover_eq (host : Host) {io : RecoverIo} {file : Bytes} (db : DB) {read : Nat}
    (hfstat : io.fstat = none) (hne : file ≠ []) (hread : readAt host io.readv = .ok read)
    (hle : read ≤ file.length) :
    recover host io file db =
      match decodeLog host (file.take read) with
      | .error status => (status, { db with walOffset := file.length }, file)
      | .ok decoded =>
        let db := { db with walOffset := file.length }.replay host decoded
        if decoded.validBytes ≠ read then
          match io.ftruncate with
          | some errno => (.ioError (errnoMessage host "truncate WAL" errno), db, file)
          | none =>
            if !(fDataSync host io.fdatasync).ok then
              (fDataSync host io.fdatasync, db, resize file decoded.validBytes)
            else
              (.Ok, db, resize file decoded.validBytes)
        else
          (.Ok, db, file) := by
  have hlen : (file.take read).length = read := by rw [List.length_take, Nat.min_eq_left hle]
  have hpos : file.length ≠ 0 := by rwa [Ne, List.length_eq_zero_iff]
  simp only [recover, hfstat, hpos, hread, resize_readInto hle, hlen, if_false, walOffset_replay]

/-! ### Calls of `ApplyBatches` -/

/-- What the calls of `ApplyBatches` work on. -/
def table (db : DB) : MemTable × PendingUpdates := (db.memtable, db.writeScratch.memtableUpdates)

theorem table_applyScratch (host : Host) (db : DB) (baseSequence : BitVec 64) :
    (db.applyScratch host baseSequence).table =
      MemTable.Call.run host db.table ⟨db.writeScratch.batches, baseSequence⟩ :=
  Prod.eta (db.memtable.applyBatches host db.writeScratch.batches baseSequence
    db.writeScratch.memtableUpdates)

theorem table_encodeGroup (host : Host) (db : DB) : (db.encodeGroup host).table = db.table := by
  unfold encodeGroup table
  simp only
  split <;> rfl

theorem table_writeGroup (host : Host) (io : WriteIo) (batches : List WriteBatch) (file : Bytes)
    (db : DB) :
    (writeGroup host io batches file db).2.1.table = MemTable.runCalls host db.table
      (if (writeGroup host io batches file db).1.ok then [⟨batches, db.nextSequence⟩] else []) := by
  unfold writeGroup
  simp only
  generalize hscratch : { db with writeScratch := { db.writeScratch with batches } } = scratch
  have htable : scratch.table = db.table := by rw [← hscratch]; rfl
  have hbatches : scratch.writeScratch.batches = batches := by rw [← hscratch]
  have hnext : scratch.nextSequence = db.nextSequence := by rw [← hscratch]
  split
  · next hfailed =>
    simp only [Bool.not_eq_true'] at hfailed
    simp only [hfailed, Bool.false_eq_true, if_false]
    rw [table_encodeGroup, htable]
    rfl
  · have happly := table_applyScratch host (scratch.encodeGroup host) scratch.nextSequence
    rw [batches_encodeGroup, table_encodeGroup, htable, hbatches, hnext] at happly
    simp only [Status.ok_Ok, if_true]
    exact happly

theorem table_replay (host : Host) (db : DB) (decoded : DecodeResult) :
    (db.replay host decoded).table = MemTable.runCalls host db.table
      (decoded.batches.map fun decoded => ⟨[decoded.batch], decoded.baseSequence⟩) := by
  have hfold : ∀ (batches : List DecodedBatch) (db : DB) (max : BitVec 64),
      (batches.foldl (replayBatch host) (db, max)).1.table = MemTable.runCalls host db.table
        (batches.map fun decoded => ⟨[decoded.batch], decoded.baseSequence⟩) := by
    intro batches
    induction batches with
    | nil => exact fun _ _ => rfl
    | cons decoded batches ih =>
      intro db max
      have hcall := table_applyScratch host
        { db with writeScratch := { db.writeScratch with batches := [decoded.batch] } }
        decoded.baseSequence
      rw [List.foldl_cons, replayBatch, ih, hcall]
      rfl
  rw [← hfold decoded.batches db 0#64]
  rfl

theorem table_recover (host : Host) (io : RecoverIo) (file : Bytes) (db : DB) :
    ∃ calls, (recover host io file db).2.1.table = MemTable.runCalls host db.table calls := by
  unfold recover
  split
  · exact ⟨[], rfl⟩
  simp only
  split
  · exact ⟨[], rfl⟩
  split
  · exact ⟨[], rfl⟩
  split
  · exact ⟨[], rfl⟩
  next decoded _ =>
  refine ⟨decoded.batches.map fun decoded => ⟨[decoded.batch], decoded.baseSequence⟩, ?_⟩
  have hreplay := table_replay host { db with walOffset := file.length } decoded
  split
  · split
    · exact hreplay
    · split <;> exact hreplay
  · exact hreplay

/-- `recover` and `writeGroup`, with any answers of the kernel. -/
inductive Operation (host : Host) : DB → DB → Prop
  | recover (io : RecoverIo) (file : Bytes) (db : DB) :
      Operation host db (recover host io file db).2.1
  | writeGroup (io : WriteIo) (batches : List WriteBatch) (file : Bytes) (db : DB) :
      Operation host db (writeGroup host io batches file db).2.1

theorem Operation.table {host : Host} {db after : DB} (h : Operation host db after) :
    ∃ calls, after.table = MemTable.runCalls host db.table calls := by
  cases h with
  | recover io file => exact table_recover host io file db
  | writeGroup io batches file => exact ⟨_, table_writeGroup host io batches file db⟩

/-- Whatever operations run on a database, its table comes from calls of `ApplyBatches` alone, and
refines the map that the entries of the calls leave. -/
theorem table_of_operations {host : Host} {db after : DB} (hplaced : db.memtable.Placed host)
    (h : Relation.ReflTransGen (Operation host) db after) :
    ∃ calls, after.table = MemTable.runCalls host db.table calls ∧
      MemTable.Refines host after.table (MemTable.applyCalls (db.memtable.slot host) calls) := by
  have hcalls : ∃ calls, after.table = MemTable.runCalls host db.table calls := by
    induction h with
    | refl => exact ⟨[], rfl⟩
    | tail _ hoperation ih =>
      obtain ⟨calls, hcalls⟩ := ih
      obtain ⟨more, hmore⟩ := hoperation.table
      refine ⟨calls ++ more, ?_⟩
      rw [hmore, hcalls, MemTable.runCalls, MemTable.runCalls, MemTable.runCalls,
        List.foldl_append]
  obtain ⟨calls, hcalls⟩ := hcalls
  have hstart : MemTable.Refines host db.table (db.memtable.slot host) :=
    MemTable.refines_of_placed hplaced rfl db.writeScratch.updatesEmpty
  exact ⟨calls, hcalls, hcalls ▸ hstart.runCalls calls⟩

end DB

end StorageEngine
