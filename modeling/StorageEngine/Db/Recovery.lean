import StorageEngine.Db.Model
import StorageEngine.Wal.Damage
import StorageEngine.Wal.Grammar

/-! Recovery of logs.  Reading all of a log that ends in a torn tail, `recover` replays the groups
of the log and cuts the tail off.  It takes what it reads for the whole file, so a short read loses
the records behind it, and a tail whose length or type was not written is reported as corruption. -/

namespace StorageEngine

open Wal Io

/-- The table after groups are applied in order, one entry at a time. -/
def committedTable (groups : List Group) : Bytes → Option MemEntry :=
  KeyedUpdates.run (fun _ => none) (groups.flatMap Group.updates)

theorem committedTable_append (groups : List Group) (group : Group) :
    committedTable (groups ++ [group]) =
      KeyedUpdates.run (committedTable groups) group.updates := by
  rw [committedTable, List.flatMap_append, KeyedUpdates.run_append, List.flatMap_singleton]
  rfl

/-- All calls of `recover` succeed, and the read returns the whole file. -/
structure RecoverIo.Whole (host : Host) (io : RecoverIo) (file : Bytes) : Prop where
  fstat : io.fstat = none
  readv : readAt host io.readv = .ok file.length
  ftruncate : io.ftruncate = none
  fdatasync : (fDataSync host io.fdatasync).ok = true

theorem RecoverIo.exists_whole (host : Host) {file : Bytes} (h : file.length < 2 ^ 31) :
    RecoverIo.Whole host { readv := .done (Int32.ofNat file.length) } file where
  fstat := rfl
  readv := by
    have hlen : (Int32.ofNat file.length).toInt = file.length := Int32.toInt_ofNat_of_lt h
    rw [readAt_of_nonneg host (by omega), hlen, Int.toNat_natCast]
  ftruncate := rfl
  fdatasync := rfl

structure DB.Recovered (host : Host) (groups : List Group) (db : DB) : Prop where
  walOffset : db.walOffset = (encodeLog host groups).length
  nextSequence : db.nextSequence = stdMax 1#64 (DB.maxSequence (groups.map Group.decoded) + 1#64)
  slot : db.memtable.slot host = committedTable groups

theorem tornTail_nil (host : Host) : TornTail host [] := Or.inl (by simp)

theorem encodeLog_eq_nil_iff (host : Host) (groups : List Group) :
    encodeLog host groups = [] ↔ groups = [] := by
  cases groups with
  | nil => simp
  | cons group groups =>
    have hlen := Group.length_encode host group
    rw [encodeLog_cons, List.append_eq_nil_iff, ← List.length_eq_zero_iff]
    simp only [reduceCtorEq, iff_false]
    omega

namespace DB

theorem recovered_replay (host : Host) (groups : List Group) (n : Nat) :
    Recovered host groups (({ walOffset := n } : DB).replay host
      { batches := groups.map Group.decoded, validBytes := (encodeLog host groups).length }) where
  walOffset := rfl
  nextSequence := nextSequence_replay host _ _
  slot := by
    rw [slot_replay]
    show KeyedUpdates.run (MemTable.new.slot host) _ = _
    rw [MemTable.slot_new, List.flatMap_map]
    rfl

/-- Recovery of a log with a torn tail replays the log and leaves only the log in the file. -/
theorem recover_whole {host : Host} {groups : List Group} (hfits : ∀ g ∈ groups, g.Fits)
    {tail : Bytes} (htail : TornTail host tail) {io : RecoverIo}
    (hio : io.Whole host (encodeLog host groups ++ tail)) :
    ∃ db, recover host io (encodeLog host groups ++ tail) {} =
      (.Ok, db, encodeLog host groups) ∧ Recovered host groups db := by
  by_cases hne : encodeLog host groups ++ tail = []
  · obtain ⟨hlog, -⟩ := List.append_eq_nil_iff.mp hne
    obtain rfl := (encodeLog_eq_nil_iff host groups).mp hlog
    refine ⟨{}, ?_, rfl, rfl, MemTable.slot_new host⟩
    simp only [hne, recover, hio.fstat]
    rfl
  refine ⟨_, ?_, recovered_replay host groups (encodeLog host groups ++ tail).length⟩
  rw [recover_eq host {} hio.fstat hne hio.readv (Nat.le_refl _), List.take_length,
    decodeLog_encodeLog_tornTail hfits htail]
  simp only [hio.ftruncate, hio.fdatasync]
  by_cases hcut : (encodeLog host groups).length = (encodeLog host groups ++ tail).length
  · -- Nothing follows the log.
    obtain rfl : tail = [] := List.length_eq_zero_iff.mp (by simpa using hcut)
    simp
  · rw [if_pos hcut, resize_of_le (by simp), List.take_left' rfl]
    rfl

/-- Recovery leaves exactly the log of `groups` in the file, and no record behind it, only when what
follows the log is a torn tail. -/
theorem tornTail_of_recover {host : Host} {groups : List Group} (hfits : ∀ g ∈ groups, g.Fits)
    {rest : Bytes} {io : RecoverIo} (hio : io.Whole host (encodeLog host groups ++ rest)) {db : DB}
    (h : recover host io (encodeLog host groups ++ rest) {} = (.Ok, db, encodeLog host groups)) :
    TornTail host rest := by
  have hunchanged : encodeLog host groups ++ rest = encodeLog host groups → TornTail host rest := by
    intro hfile
    rw [List.append_right_eq_self.mp hfile]
    exact tornTail_nil host
  by_cases hne : encodeLog host groups ++ rest = []
  · exact hunchanged (by rw [hne, (List.append_eq_nil_iff.mp hne).1])
  rw [recover_eq host {} hio.fstat hne hio.readv (Nat.le_refl _), List.take_length,
    decodeLog_encodeLog_append host hfits] at h
  cases hdecode : decodeLog host rest with
  | error status =>
    rw [hdecode] at h
    exact hunchanged (congrArg (fun outcome => outcome.2.2) h)
  | ok result =>
    rw [hdecode] at h
    simp only [Except.map, hio.ftruncate, hio.fdatasync] at h
    have hvalid := validBytes_le hdecode
    split at h
    · -- The file was cut, and what is left has the length of the log.
      have hfile := congrArg (fun outcome => outcome.2.2.length) h
      simp only [Bool.not_true, Bool.false_eq_true, if_false] at hfile
      rw [resize_of_le (by simp; omega), List.length_take, List.length_append] at hfile
      exact (decodeLog_validBytes_eq_zero_iff host rest).mp ⟨result, hdecode, by omega⟩
    · exact hunchanged (congrArg (fun outcome => outcome.2.2) h)

theorem openDb_of_recover {host : Host} {io : RecoverIo} {file after : Bytes} {db : DB}
    (h : recover host io file {} = (.Ok, db, after)) :
    openDb host { recover := io } file = (.ok db, after) := by
  simp [openDb, h]

/-! ### Recovering again -/

theorem replay_walOffset (host : Host) (db : DB) (n : Nat) (decoded : DecodeResult) :
    { db with walOffset := n }.replay host decoded = db.replay host decoded := by
  have hfold : ∀ (batches : List DecodedBatch) (db : DB) (max : BitVec 64),
      batches.foldl (replayBatch host) ({ db with walOffset := n }, max) =
        ({ (batches.foldl (replayBatch host) (db, max)).1 with walOffset := n },
          (batches.foldl (replayBatch host) (db, max)).2) := by
    intro batches
    induction batches with
    | nil => exact fun _ _ => rfl
    | cons decoded batches ih =>
      intro db max
      exact ih (replayBatch host (db, max) decoded).1 (replayBatch host (db, max) decoded).2
  simp only [replay, hfold]

/-- Recovery that reads the whole file depends on what is decoded from it. -/
theorem recover_decoded {host : Host} {io : RecoverIo} {file : Bytes} {decoded : DecodeResult}
    (hfstat : io.fstat = none) (hread : readAt host io.readv = .ok file.length)
    (hdecode : decodeLog host file = .ok decoded) :
    recover host io file {} =
      if decoded.validBytes ≠ file.length then
        match io.ftruncate with
        | some errno =>
          (.ioError (errnoMessage host "truncate WAL" errno), ({} : DB).replay host decoded, file)
        | none =>
          if !(fDataSync host io.fdatasync).ok then
            (fDataSync host io.fdatasync, ({} : DB).replay host decoded,
              file.take decoded.validBytes)
          else
            (.Ok, ({} : DB).replay host decoded, file.take decoded.validBytes)
      else
        (.Ok, ({} : DB).replay host decoded, file) := by
  by_cases hne : file = []
  · subst hne
    rw [decodeLog_nil] at hdecode
    obtain rfl := Except.ok.inj hdecode
    rw [if_neg (by simp), recover, hfstat]
    rfl
  · have hreplay : ({ walOffset := file.length } : DB).replay host decoded =
        ({} : DB).replay host decoded := replay_walOffset host {} _ _
    rw [recover_eq host {} hfstat hne hread (Nat.le_refl _), List.take_length, hdecode]
    cases io.ftruncate with
    | none => simp only [hreplay, resize_of_le (validBytes_le hdecode)]
    | some errno => simp only [hreplay]

/-- What was decoded from a log is decoded again from the bytes that were accepted, in front of
whatever is appended to them, and recovery of the truncated file repeats the one that truncated
it. -/
theorem recovered_log_read_again (host : Host) (log : Bytes) (result : DecodeResult)
    (h : decodeLog host log = .ok result) :
    decodeLog host (log.take result.validBytes) = .ok result ∧
      (∀ io again : RecoverIo, io.Whole host log → again.fstat = none →
        readAt host again.readv = .ok (log.take result.validBytes).length →
        ∃ db, recover host io log {} = (.Ok, db, log.take result.validBytes) ∧
          recover host again (log.take result.validBytes) {} =
            (.Ok, db, log.take result.validBytes)) ∧
      ∀ rest,
        (∀ status, decodeLog host rest = .error status →
          decodeLog host (log.take result.validBytes ++ rest) = .error status) ∧
        ∀ more, decodeLog host rest = .ok more →
          decodeLog host (log.take result.validBytes ++ rest) =
            .ok { batches := result.batches ++ more.batches
                  validBytes := result.validBytes + more.validBytes } := by
  have hagain := decodeLog_take h
  refine ⟨hagain, fun io again hio hfstat hread => ?_, fun rest => ⟨?_, ?_⟩⟩
  · have hlen : result.validBytes = (log.take result.validBytes).length := by
      rw [List.length_take, Nat.min_eq_left (validBytes_le h)]
    refine ⟨({} : DB).replay host result, ?_, ?_⟩
    · rw [recover_decoded hio.fstat hio.readv h, hio.ftruncate, hio.fdatasync]
      by_cases hcut : result.validBytes = log.length
      · rw [if_neg (not_not.mpr hcut), hcut, List.take_length]
      · rw [if_pos hcut]
        rfl
    · rw [recover_decoded hfstat hread hagain, if_neg (not_not.mpr hlen)]
  · intro status hrest
    rw [decodeLog_take_append h, hrest]
    rfl
  · intro more hrest
    rw [decodeLog_take_append h, hrest]
    rfl

/-- A record and three bytes of another one. -/
theorem recovered_log_read_again_torn :
    let log := encodeLog .sample [.put 1 [97] [49]] ++ [7, 7, 7]
    ∃ result db, decodeLog .sample log = .ok result ∧
      recover .sample { readv := .done 35 } log {} = (.Ok, db, log.take result.validBytes) ∧
      recover .sample { readv := .done 32, ftruncate := some 5 } (log.take result.validBytes) {} =
        (.Ok, db, log.take result.validBytes) := by
  have hdecode : decodeLog .sample (encodeLog .sample [.put 1 [97] [49]] ++ [7, 7, 7]) =
      .ok ⟨[⟨1, .put .new [97] [49]⟩], 32⟩ := by decide +kernel
  obtain ⟨-, hrecover, -⟩ := recovered_log_read_again .sample _ _ hdecode
  obtain ⟨db, hdb, hagain⟩ := hrecover { readv := .done 35 }
    { readv := .done 32, ftruncate := some 5 } ⟨rfl, by decide +kernel, rfl, rfl⟩ rfl
    (by decide +kernel)
  exact ⟨_, db, hdecode, hdb, hagain⟩

/-! ### Torn writes with holes -/

def TailIgnored (host : Host) (groups : List Group) (tail : Bytes) : Prop :=
  decodeLog host (encodeLog host groups ++ tail) =
      .ok { batches := groups.map Group.decoded
            validBytes := (encodeLog host groups).length } ∧
    ∀ io : RecoverIo, io.Whole host (encodeLog host groups ++ tail) →
      ∃ db, openDb host { recover := io } (encodeLog host groups ++ tail) =
        (.ok db, encodeLog host groups) ∧ Recovered host groups db

theorem tailIgnored_iff {host : Host} {groups : List Group} (hfits : ∀ g ∈ groups, g.Fits)
    {tail : Bytes} : TailIgnored host groups tail ↔ TornTail host tail := by
  constructor
  · rintro ⟨hdecode, -⟩
    rw [decodeLog_encodeLog_append host hfits] at hdecode
    rw [← decodeLog_validBytes_eq_zero_iff]
    cases htail : decodeLog host tail with
    | error status => rw [htail] at hdecode; contradiction
    | ok result =>
      rw [htail] at hdecode
      have hvalid := congrArg DecodeResult.validBytes (Except.ok.inj hdecode)
      exact ⟨result, rfl, by simpa using hvalid⟩
  · intro htail
    refine ⟨decodeLog_encodeLog_tornTail hfits htail, fun io hio => ?_⟩
    obtain ⟨db, hrecover, hdb⟩ := recover_whole hfits htail hio
    exact ⟨db, openDb_of_recover hrecover, hdb⟩

/-- A record at the end of a log, some of whose bytes were never written, is ignored exactly when
its length and its type were written: a hole there must hit a zero.  The checksum is assumed to see
the holes, which excludes the complete record. -/
theorem tail_with_holes_ignored_iff (host : Host) (groups : List Group)
    (hfits : ∀ g ∈ groups, g.Fits) (group : Group) (hgroup : group.Fits) (hole : Nat → Bool)
    (hcrc : crc32C host ((withHoles hole (group.encode host)).drop 9) ≠
      storedCrc (withHoles hole (group.encode host))) :
    TailIgnored host groups (withHoles hole (group.encode host)) ↔
      ∀ i, 4 ≤ i → i ≤ 8 → hole i = true → (group.encode host).getD i 0#8 = 0#8 := by
  rw [tailIgnored_iff hfits, tornTail_withHoles_iff hgroup hcrc]

/-- All bytes from the type on are missing: the log cannot be opened any more. -/
theorem tail_without_type_corrupt :
    let tail := withHoles (fun i => 8 ≤ i) ((Group.put 2 [98] [50]).encode .sample)
    crc32C .sample (tail.drop 9) ≠ storedCrc tail ∧
      decodeLog .sample (encodeLog .sample [.put 1 [97] [49]] ++ tail) =
        .error (.corruption "unknown WAL record type") := by
  decide +kernel

theorem tail_without_value_ignored :
    TailIgnored .sample [.put 1 [97] [49]]
      (withHoles (fun i => 31 ≤ i) ((Group.put 2 [98] [50]).encode .sample)) :=
  (tail_with_holes_ignored_iff .sample _ (by decide) _ (by decide) _ (by decide +kernel)).mpr
    fun i _ h8 hhole => absurd (of_decide_eq_true hhole) (by omega)

/-! ### Short reads -/

/-- A front of a log is the log of its first groups and a torn tail. -/
theorem take_encodeLog (host : Host) {groups : List Group} (hfits : ∀ g ∈ groups, g.Fits)
    (n : Nat) :
    ∃ front tail, (encodeLog host groups).take n = encodeLog host front ++ tail ∧
      front <+: groups ∧ TornTail host tail := by
  induction groups generalizing n with
  | nil => exact ⟨[], [], by simp, List.nil_prefix, tornTail_nil host⟩
  | cons group groups ih =>
    rw [encodeLog_cons, List.take_append]
    rcases Nat.lt_or_ge n (group.encode host).length with hcut | hcut
    · refine ⟨[], (group.encode host).take n, ?_, List.nil_prefix,
        tornTail_take_encode host (hfits group (by simp)) hcut⟩
      rw [Nat.sub_eq_zero_of_le (Nat.le_of_lt hcut)]
      simp
    · obtain ⟨front, tail, htake, hfront, htail⟩ := ih (fun g hg => hfits g (by simp [hg]))
        (n - (group.encode host).length)
      refine ⟨group :: front, tail, ?_, List.cons_prefix_cons.mpr ⟨rfl, hfront⟩, htail⟩
      rw [List.take_of_length_le hcut, htake, encodeLog_cons, List.append_assoc]

/-- Recovery of the log of `groups` is safe when it fails and leaves the file alone, or succeeds,
replays every group, and appends behind the last record from then on. -/
def SafeRecovery (host : Host) (groups : List Group) (outcome : Status × DB × Bytes) : Prop :=
  (outcome.1.ok = false ∧ outcome.2.2 = encodeLog host groups) ∨
    (outcome.1 = .Ok ∧ outcome.2.2 = encodeLog host groups ∧
      outcome.2.1.walOffset = (encodeLog host groups).length ∧
      outcome.2.1.memtable.slot host = committedTable groups)

theorem not_safeRecovery_of_short {host : Host} {groups : List Group}
    (hfits : ∀ g ∈ groups, g.Fits) {read : Int32} (hpos : 0 ≤ read.toInt)
    (hshort : read.toInt < (encodeLog host groups).length) :
    ¬SafeRecovery host groups
      (recover host { readv := .done read } (encodeLog host groups) {}) := by
  intro hsafe
  have hne : encodeLog host groups ≠ [] := List.length_pos_iff.mp (by omega)
  obtain ⟨front, tail, htake, hfront, htail⟩ := take_encodeLog host hfits read.toInt.toNat
  have hlen : (encodeLog host front).length ≤ read.toInt.toNat := by
    have := congrArg List.length htake
    simp only [List.length_take, List.length_append] at this
    omega
  rw [recover_eq host {} rfl hne (readAt_of_nonneg host hpos) (by omega), htake,
    decodeLog_encodeLog_tornTail (fun g hg => hfits g (hfront.subset hg)) htail] at hsafe
  simp only at hsafe
  by_cases hcut : (encodeLog host front).length = read.toInt.toNat
  · -- The read ends at a record: the next group would overwrite the one behind it.
    rw [if_neg (not_not.mpr hcut)] at hsafe
    rcases hsafe with ⟨hok, -⟩ | ⟨-, -, hoffset, -⟩
    · contradiction
    · rw [walOffset_replay] at hoffset
      simp only at hoffset
      omega
  · -- The read ends inside a record: the file is truncated before it.
    have hsync : (fDataSync host (.done 0)).ok = true := by rfl
    rw [if_pos hcut, resize_of_le (by omega)] at hsafe
    simp only [hsync] at hsafe
    have hfile : ((encodeLog host groups).take (encodeLog host front).length) =
        encodeLog host groups := by
      rcases hsafe with ⟨-, hfile⟩ | ⟨-, hfile, -⟩ <;> exact hfile
    have := congrArg List.length hfile
    rw [List.length_take] at this
    omega

theorem safeRecovery_of_whole {host : Host} {groups : List Group} (hfits : ∀ g ∈ groups, g.Fits)
    {io : RecoverIo} (hread : readAt host io.readv = .ok (encodeLog host groups).length) :
    SafeRecovery host groups (recover host io (encodeLog host groups) {}) := by
  cases hfstat : io.fstat with
  | some errno => exact Or.inl ⟨by simp [recover, hfstat], by simp [recover, hfstat]⟩
  | none =>
    by_cases hne : encodeLog host groups = []
    · obtain rfl := (encodeLog_eq_nil_iff host groups).mp hne
      exact Or.inr (by simp [recover, hfstat, committedTable])
    have hrecovered := recovered_replay host groups (encodeLog host groups).length
    have hdecode := decodeLog_encodeLog_tornTail hfits (tornTail_nil host)
    rw [List.append_nil] at hdecode
    rw [recover_eq host {} hfstat hne hread (Nat.le_refl _), List.take_length, hdecode]
    exact Or.inr (by simpa using hrecovered.slot)

/-- Recovery is safe for every answer to its other calls exactly when the read returns the whole
file.  After a short read it takes the bytes it has for the file: it truncates the file behind the
last record that was read completely, or lets the next group overwrite the records behind it. -/
theorem recover_safe_iff (host : Host) (groups : List Group) (hfits : ∀ g ∈ groups, g.Fits)
    (read : Int32) (hpos : 0 ≤ read.toInt)
    (hle : read.toInt ≤ (encodeLog host groups).length) :
    (∀ io : RecoverIo, io.readv = .done read →
        SafeRecovery host groups (recover host io (encodeLog host groups) {})) ↔
      read.toInt = (encodeLog host groups).length := by
  constructor
  · intro hsafe
    by_contra hshort
    exact not_safeRecovery_of_short hfits hpos (by omega) (hsafe { readv := .done read } rfl)
  · intro hwhole io hio
    apply safeRecovery_of_whole hfits
    rw [hio, readAt_of_nonneg host hpos, hwhole, Int.toNat_natCast]

/-- Two records of 32 bytes, of which 37 are read: the second record is cut off. -/
theorem recover_short_read_truncates :
    let groups : List Group := [.put 1 [97] [49], .put 2 [98] [50]]
    let outcome := recover .sample { readv := .done 37 } (encodeLog .sample groups) {}
    outcome.1 = .Ok ∧ outcome.2.2 = encodeLog .sample [.put 1 [97] [49]] := by
  decide +kernel

theorem recover_safe_whole_read :
    SafeRecovery .sample [.put 1 [97] [49]]
      (recover .sample { readv := .done 32 } (encodeLog .sample [.put 1 [97] [49]]) {}) :=
  (recover_safe_iff .sample [.put 1 [97] [49]] (by decide) 32 (by decide) (by decide)).mpr
    (by decide) { readv := .done 32 } rfl

end DB

end StorageEngine
