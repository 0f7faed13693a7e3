import StorageEngine.Db.Sessions
import StorageEngine.Wal.Accepted

/-! Sessions with failed groups.  A group whose write or sync fails does not move the end of the
log, but its bytes may stay in the file.  The next group overwrites them from the front; when it is
shorter, the rest of the failed record stays behind the log and is what recovery finds there. -/

namespace StorageEngine

open Wal Io Transition

/-- The groups of a session, in order, each with the kernel's answer; returned with the state are
the groups that were acknowledged. -/
def DB.runGroups (host : Host) :
    List (WriteIo × List WriteBatch) → Bytes → DB → DB × Bytes × List Group
  | [], file, db => (db, file, [])
  | (io, batches) :: rest, file, db =>
    let group := db.nextGroup batches
    let (status, db, file) := db.writeGroup host io batches file
    let (db, file, acknowledged) := runGroups host rest file db
    (db, file, if status.ok then group :: acknowledged else acknowledged)

def handedRecord (host : Host) (base : BitVec 64) (batches : List WriteBatch) : Bytes :=
  ({ nextSequence := base } : DB).nextRecord host batches

/-- What is behind the end of the log after a list of groups, when `rest` was there before.  A
group that succeeds covers the front of it, and one that fails stores the front of its record. -/
def leftover (host : Host) : BitVec 64 → List (WriteIo × List WriteBatch) → Bytes → Bytes
  | _, [], rest => rest
  | base, (io, batches) :: groups, rest =>
    let group : Group := ⟨base, batches⟩
    if (writevAndFDataSync host io.completion (group.encode host).length).ok then
      leftover host (base + BitVec.ofNat 64 group.entries.length) groups
        (rest.drop (group.encode host).length)
    else
      let stored := (handedRecord host base batches).take io.written
      leftover host base groups (stored ++ rest.drop stored.length)

section Runs

variable {host : Host} {committed : List Group} {rest file : Bytes} {db : DB}

theorem nextRecord_eq_handedRecord (batches : List WriteBatch) :
    db.nextRecord host batches = handedRecord host db.nextSequence batches := by
  have hfragments : encodeBatchFragmentsInto db.nextSequence batches db.walRecord =
      encodeBatchFragmentsInto db.nextSequence batches {} := rfl
  simp only [DB.nextRecord, handedRecord, DB.encodeGroup, encodeBatchInto_eq_encodeRecord,
    hfragments]
  split <;> rfl

theorem OpenOn.writeGroup_failed (h : OpenOn host committed rest file db) {io : WriteIo}
    {batches : List WriteBatch} (hfail : (db.syncStatus host io batches).ok = false) :
    OpenOn host committed
        ((db.nextRecord host batches).take io.written ++
          rest.drop ((db.nextRecord host batches).take io.written).length)
        (db.writeGroup host io batches file).2.2 (db.writeGroup host io batches file).2.1 ∧
      (db.writeGroup host io batches file).2.1.nextSequence = db.nextSequence := by
  obtain ⟨after, hwrite, hoffset, hnext, htable⟩ := DB.writeGroup_failed file hfail
  rw [hwrite]
  refine ⟨⟨?_, hoffset.trans h.walOffset, ?_⟩, hnext⟩
  · rw [h.writeAt, List.append_assoc]
  · rw [htable, h.slot]

theorem leftover_failed {io : WriteIo} {batches : List WriteBatch}
    (h : (db.syncStatus host io batches).ok = false)
    (groups : List (WriteIo × List WriteBatch)) (rest : Bytes) :
    leftover host db.nextSequence ((io, batches) :: groups) rest =
      leftover host db.nextSequence groups ((db.nextRecord host batches).take io.written ++
        rest.drop ((db.nextRecord host batches).take io.written).length) := by
  rw [leftover, nextRecord_eq_handedRecord]
  exact if_neg (Bool.eq_false_iff.mp h)

theorem leftover_ok {io : WriteIo} {batches : List WriteBatch}
    (h : (db.syncStatus host io batches).ok = true)
    (groups : List (WriteIo × List WriteBatch)) (rest : Bytes) :
    leftover host db.nextSequence ((io, batches) :: groups) rest =
      leftover host (db.nextSequence + BitVec.ofNat 64 (db.nextGroup batches).entries.length) groups
        (rest.drop ((db.nextGroup batches).encode host).length) := by
  rw [leftover]
  exact if_pos h

theorem runGroups_cons (io : WriteIo) (batches : List WriteBatch)
    (groups : List (WriteIo × List WriteBatch)) (file : Bytes) :
    db.runGroups host ((io, batches) :: groups) file =
      let outcome := db.writeGroup host io batches file
      let next := outcome.2.1.runGroups host groups outcome.2.2
      (next.1, next.2.1,
        if (db.syncStatus host io batches).ok then db.nextGroup batches :: next.2.2
        else next.2.2) := by
  rw [← DB.status_writeGroup file]
  rfl

/-- Over a list of groups, the log grows by the acknowledged groups, and `leftover` is behind it. -/
theorem OpenOn.runGroups (h : OpenOn host committed rest file db)
    (hfits : ∀ g ∈ committed, g.Fits) (groups : List (WriteIo × List WriteBatch)) :
    OpenOn host (committed ++ (db.runGroups host groups file).2.2)
        (leftover host db.nextSequence groups rest) (db.runGroups host groups file).2.1
        (db.runGroups host groups file).1 ∧
      ∀ g ∈ committed ++ (db.runGroups host groups file).2.2, g.Fits := by
  induction groups generalizing committed rest file db with
  | nil => simpa [DB.runGroups, leftover] using ⟨h, hfits⟩
  | cons event groups ih =>
    obtain ⟨io, batches⟩ := event
    rw [runGroups_cons]
    cases hok : (db.syncStatus host io batches).ok with
    | false =>
      obtain ⟨hopen, hnext⟩ := h.writeGroup_failed hok
      have hrest := ih hopen hfits
      rw [hnext] at hrest
      rw [leftover_failed hok]
      exact hrest
    | true =>
      have hopen := h.writeGroup (by rw [DB.status_writeGroup]; exact hok)
      obtain ⟨hgroup, after, hwrite, hcommits⟩ := DB.writeGroup_ok file hok
      have hfits' : ∀ g ∈ committed ++ [db.nextGroup batches], g.Fits :=
        List.forall_mem_append.mpr ⟨hfits, List.forall_mem_singleton.mpr hgroup⟩
      have hrest := ih hopen hfits'
      rw [hwrite] at hrest ⊢
      rw [hcommits.nextSequence, List.append_assoc] at hrest
      rw [leftover_ok hok]
      exact hrest

end Runs

/-! ### Reopening -/

/-- The bytes `rest` are complete records, if any, and then a torn tail; and of the entries in the
records, the last one of each key is the entry that the table of `groups` holds. -/
def Harmless (host : Host) (groups : List Group) (rest : Bytes) : Prop :=
  ∃ batches, LogHolds host rest batches ∧
    ∀ before update after, batches.flatMap DecodedBatch.updates = before ++ update :: after →
      (∀ later ∈ after, later.1 ≠ update.1) → committedTable groups update.1 = some update.2

/-- The decoder accepts harmless bytes, and replaying what it finds there changes nothing. -/
theorem harmless_iff (host : Host) (groups : List Group) (rest : Bytes) :
    Harmless host groups rest ↔ ∃ decoded, decodeLog host rest = .ok decoded ∧
      KeyedUpdates.run (committedTable groups) (decoded.batches.flatMap DecodedBatch.updates) =
        committedTable groups := by
  simp only [Harmless, ← decodeLog_ok_iff, ← KeyedUpdates.run_eq_self_iff]
  constructor
  · rintro ⟨batches, ⟨validBytes, hdecode⟩, hsame⟩
    exact ⟨⟨batches, validBytes⟩, hdecode, hsame⟩
  · rintro ⟨⟨batches, validBytes⟩, hdecode, hsame⟩
    exact ⟨batches, ⟨validBytes, hdecode⟩, hsame⟩

theorem DB.recover_append_ok {host : Host} {groups : List Group} (hfits : ∀ g ∈ groups, g.Fits)
    {rest : Bytes} {io : RecoverIo} (hio : io.Whole host (encodeLog host groups ++ rest))
    {decoded : DecodeResult} (hdecode : decodeLog host rest = .ok decoded) :
    ∃ opened after, recover host io (encodeLog host groups ++ rest) {} = (.Ok, opened, after) ∧
      opened.memtable.slot host = KeyedUpdates.run (committedTable groups)
        (decoded.batches.flatMap DecodedBatch.updates) := by
  by_cases hne : encodeLog host groups ++ rest = []
  · obtain ⟨hlog, rfl⟩ := List.append_eq_nil_iff.mp hne
    obtain rfl := (encodeLog_eq_nil_iff host groups).mp hlog
    obtain rfl : {} = decoded := by simpa using hdecode
    exact ⟨{}, [], by simp [recover, hio.fstat], by simp [committedTable]⟩
  have hslot : ∀ n, (({ walOffset := n } : DB).replay host
      { batches := groups.map Group.decoded ++ decoded.batches
        validBytes := (encodeLog host groups).length + decoded.validBytes }).memtable.slot host =
      KeyedUpdates.run (committedTable groups) (decoded.batches.flatMap DecodedBatch.updates) := by
    intro n
    have hreplay := (recovered_replay host groups n).slot
    rw [slot_replay] at hreplay ⊢
    rw [List.flatMap_append, KeyedUpdates.run_append, hreplay]
  rw [recover_eq host {} hio.fstat hne hio.readv (Nat.le_refl _), List.take_length,
    decodeLog_encodeLog_append host hfits, hdecode]
  simp only [Except.map, hio.ftruncate, hio.fdatasync]
  split
  · exact ⟨_, _, rfl, hslot _⟩
  · exact ⟨_, _, rfl, hslot _⟩

theorem DB.recover_append_error {host : Host} {groups : List Group}
    (hfits : ∀ g ∈ groups, g.Fits) {rest : Bytes} {io : RecoverIo}
    (hio : io.Whole host (encodeLog host groups ++ rest)) {status : Status}
    (hdecode : decodeLog host rest = .error status) :
    (recover host io (encodeLog host groups ++ rest) {}).1 = status := by
  have hne : encodeLog host groups ++ rest ≠ [] := by
    intro hnil
    rw [(List.append_eq_nil_iff.mp hnil).2, decodeLog_nil] at hdecode
    contradiction
  rw [recover_eq host {} hio.fstat hne hio.readv (Nat.le_refl _), List.take_length,
    decodeLog_encodeLog_append host hfits, hdecode]
  rfl

theorem DB.recover_append_iff {host : Host} {groups : List Group} (hfits : ∀ g ∈ groups, g.Fits)
    {rest : Bytes} {io : RecoverIo} (hio : io.Whole host (encodeLog host groups ++ rest)) :
    (∃ opened after, recover host io (encodeLog host groups ++ rest) {} = (.Ok, opened, after) ∧
        opened.memtable.slot host = committedTable groups) ↔ Harmless host groups rest := by
  rw [harmless_iff]
  cases hdecode : decodeLog host rest with
  | error status =>
    have hstatus := recover_append_error hfits hio hdecode
    obtain ⟨message, rfl⟩ := decodeLog_error hdecode
    constructor
    · rintro ⟨opened, after, hrecover, -⟩
      rw [hrecover] at hstatus
      simp [Status.Ok, Status.corruption] at hstatus
    · rintro ⟨decoded, hok, -⟩
      contradiction
  | ok decoded =>
    obtain ⟨opened, after, hrecover, hslot⟩ := recover_append_ok hfits hio hdecode
    constructor
    · rintro ⟨opened', after', hrecover', hslot'⟩
      rw [hrecover] at hrecover'
      obtain ⟨rfl, rfl⟩ : _ ∧ _ := by simpa using hrecover'
      exact ⟨decoded, rfl, hslot.symm.trans hslot'⟩
    · rintro ⟨decoded', hok, hsame⟩
      obtain rfl := Except.ok.inj hok
      exact ⟨opened, after, hrecover, hslot.trans hsame⟩

/-- After a session with failures, reopening succeeds with the table of the acknowledged groups
exactly when what the failed groups left behind the log is harmless.  The log then holds the
acknowledged groups and no other record exactly when it is a torn tail. -/
theorem reopen_after_failures_iff (host : Host) (w : World) (hw : Reachable (sessions host) w)
    (db : DB) (hopen : w.db = some db) (groups : List (WriteIo × List WriteBatch)) (io : RecoverIo)
    (hio : io.Whole host (db.runGroups host groups w.file).2.1) :
    let file := (db.runGroups host groups w.file).2.1
    let acknowledged := w.committed ++ (db.runGroups host groups w.file).2.2
    let rest := leftover host db.nextSequence groups []
    ((∃ opened after, DB.recover host io file {} = (.Ok, opened, after) ∧
        opened.memtable.slot host = committedTable acknowledged) ↔
      Harmless host acknowledged rest) ∧
    ((∃ opened, DB.recover host io file {} = (.Ok, opened, encodeLog host acknowledged) ∧
        opened.memtable.slot host = committedTable acknowledged) ↔ TornTail host rest) := by
  obtain ⟨hfits, -, hstate⟩ := consistent_of_reachable hw
  rw [hopen] at hstate
  obtain ⟨hafter, hfits'⟩ := OpenOn.runGroups hstate hfits groups
  have hfile := hafter.file_eq
  generalize db.runGroups host groups w.file = after at *
  rw [hfile] at hio
  simp only [hfile]
  refine ⟨DB.recover_append_iff hfits' hio, ?_, fun htail => ?_⟩
  · rintro ⟨opened, hrecover, -⟩
    exact DB.tornTail_of_recover hfits' hio hrecover
  · obtain ⟨opened, hrecover, hopened⟩ := DB.recover_whole hfits' htail hio
    exact ⟨opened, hrecover, hopened.slot⟩

/-- A group with 40 zeros as its value is written but not synced, and a shorter group succeeds: the
zeros behind its record are read as a record of an unknown type, and the log is corrupt. -/
theorem reopen_after_failed_sync_corrupt :
    let groups : List (WriteIo × List WriteBatch) :=
      [({ completion := .done 71 (-5) }, [.put .new [97] (List.replicate 40 0)]),
        (.success 32, [.put .new [98] [50]])]
    let after := ({} : DB).runGroups .sample groups []
    after.2.2 = [.put 1 [98] [50]] ∧
      (DB.recover .sample { readv := .done 71 } after.2.1 {}).1 =
        .corruption "unknown WAL record type" := by
  decide +kernel

theorem reopen_after_short_write :
    let groups : List (WriteIo × List WriteBatch) :=
      [({ completion := .done 20 0 }, [.put .new [97] [49]]), (.success 32, [.put .new [98] [50]])]
    let after := ({} : DB).runGroups .sample groups []
    ∃ opened, DB.recover .sample { readv := .done 32 } after.2.1 {} =
        (.Ok, opened, encodeLog .sample ([] ++ after.2.2)) ∧
      opened.memtable.slot .sample = committedTable ([] ++ after.2.2) := by
  have hopen : Reachable (sessions .sample) { db := some {} } :=
    .step (.initial rfl) (.opens { readv := .done 0 } ⟨rfl, rfl, rfl, rfl⟩ rfl)
  exact (reopen_after_failures_iff .sample _ hopen _ rfl _ _
    ⟨rfl, by decide +kernel, rfl, rfl⟩).2.mpr (by decide +kernel)

end StorageEngine
