import StorageEngine.Db.Failures

/-! Grouping.  The queue decides how many batches share a record.  Whatever it decides, the table,
the counter, and the table that recovery rebuilds are those of the batches in their order; only the
bytes of the log tell how the batches were grouped. -/

namespace StorageEngine

open Wal Io Transition

/-- A list of groups, one after the other; `none` when one of them fails. -/
def DB.writeGroups (host : Host) (groups : List (WriteIo × List WriteBatch)) (file : Bytes)
    (db : DB) : Option (DB × Bytes) :=
  let (db, file, acknowledged) := db.runGroups host groups file
  if acknowledged.length = groups.length then some (db, file) else none

/-- The groups that a list of groups of batches becomes, from sequence number `base` on. -/
def numberGroups (base : BitVec 64) : List (List WriteBatch) → List Group
  | [] => []
  | batches :: rest =>
    ⟨base, batches⟩ :: numberGroups (base + BitVec.ofNat 64 (groupEntries batches).length) rest

theorem groupEntries_flatten_cons (batches : List WriteBatch) (rest : List (List WriteBatch)) :
    groupEntries (batches :: rest).flatten = groupEntries batches ++ groupEntries rest.flatten := by
  rw [List.flatten_cons, groupEntries_append]

theorem flatMap_updates_numberGroups (base : BitVec 64) (parts : List (List WriteBatch)) :
    (numberGroups base parts).flatMap Group.updates =
      MemTable.stamp base (groupEntries parts.flatten) := by
  induction parts generalizing base with
  | nil => rfl
  | cons batches rest ih =>
    rw [numberGroups, List.flatMap_cons, ih, groupEntries_flatten_cons, MemTable.stamp_append]
    rfl

theorem map_batches_numberGroups (base : BitVec 64) (parts : List (List WriteBatch)) :
    (numberGroups base parts).map Group.batches = parts := by
  induction parts generalizing base with
  | nil => rfl
  | cons batches rest ih => rw [numberGroups, List.map_cons, ih]

section Successes

variable {host : Host} {db final : DB} {file after : Bytes}
  {groups : List (WriteIo × List WriteBatch)}

theorem DB.length_acknowledged_le (groups : List (WriteIo × List WriteBatch)) (file : Bytes)
    (db : DB) : (db.runGroups host groups file).2.2.length ≤ groups.length := by
  induction groups generalizing file db with
  | nil => exact Nat.le_refl _
  | cons event groups ih =>
    have hrest := ih (db.writeGroup host event.1 event.2 file).2.2
      (db.writeGroup host event.1 event.2 file).2.1
    rw [runGroups_cons, List.length_cons]
    simp only
    split
    · rw [List.length_cons]
      omega
    · omega

/-- When every group succeeds, the acknowledged groups are numbered one after the other, and their
records cover what was behind the log. -/
theorem DB.runGroups_of_writeGroups (h : db.writeGroups host groups file = some (final, after))
    (rest : Bytes) :
    let acknowledged := numberGroups db.nextSequence (groups.map Prod.snd)
    db.runGroups host groups file = (final, after, acknowledged) ∧
      leftover host db.nextSequence groups rest =
        rest.drop (encodeLog host acknowledged).length ∧
      final.nextSequence = db.nextSequence +
        BitVec.ofNat 64 (groupEntries (groups.map Prod.snd).flatten).length := by
  induction groups generalizing db file rest with
  | nil =>
    obtain ⟨rfl, rfl⟩ := Prod.mk.inj (Option.some.inj h)
    exact ⟨rfl, rfl, by simp [groupEntries]⟩
  | cons event groups ih =>
    obtain ⟨io, batches⟩ := event
    have hle := @length_acknowledged_le host groups
      (db.writeGroup host io batches file).2.2 (db.writeGroup host io batches file).2.1
    simp only [DB.writeGroups, runGroups_cons, List.length_cons] at h
    cases hok : (db.syncStatus host io batches).ok with
    | false =>
      simp only [hok, Bool.false_eq_true, if_false] at h
      rw [if_neg (by omega)] at h
      contradiction
    | true =>
      obtain ⟨-, next, hwrite, hcommits⟩ := DB.writeGroup_ok file hok
      simp only [hok, if_true, List.length_cons, Nat.add_right_cancel_iff, hwrite] at h
      obtain ⟨hrun, hleft, hnext⟩ := ih h (rest.drop ((db.nextGroup batches).encode host).length)
      rw [hcommits.nextSequence] at hrun hleft hnext
      refine ⟨?_, ?_, ?_⟩
      · simp only [runGroups_cons, hwrite, hrun, hok, if_true]
        rfl
      · rw [leftover_ok hok, hleft, List.drop_drop, List.map_cons, numberGroups, encodeLog_cons,
          List.length_append]
        rfl
      · rw [hnext, List.map_cons, groupEntries_flatten_cons, List.length_append, BitVec.ofNat_add,
          BitVec.add_assoc]
        rfl

theorem OpenOn.writeGroups {committed : List Group} {rest : Bytes}
    (h : OpenOn host committed rest file db) (hfits : ∀ g ∈ committed, g.Fits)
    (hrun : db.writeGroups host groups file = some (final, after)) :
    let acknowledged := numberGroups db.nextSequence (groups.map Prod.snd)
    OpenOn host (committed ++ acknowledged) (rest.drop (encodeLog host acknowledged).length) after
        final ∧
      (∀ g ∈ committed ++ acknowledged, g.Fits) ∧
      final.nextSequence = db.nextSequence +
        BitVec.ofNat 64 (groupEntries (groups.map Prod.snd).flatten).length := by
  obtain ⟨hgroups, hleft, hnext⟩ := DB.runGroups_of_writeGroups hrun rest
  obtain ⟨hopen, hall⟩ := h.runGroups hfits groups
  rw [hgroups] at hopen hall
  rw [hleft] at hopen
  exact ⟨hopen, hall, hnext⟩

end Successes

/-! ### The log shows the groups -/

theorem front_eq_of_groupEntries {a b c d : List WriteBatch} (happend : a ++ c = b ++ d)
    (ha : ∀ batch ∈ a, batch.empty = false) (hb : ∀ batch ∈ b, batch.empty = false)
    (h : groupEntries a = groupEntries b) : a = b := by
  rcases List.append_eq_append_iff.mp happend with ⟨e, rfl, -⟩ | ⟨e, rfl, -⟩
  · rw [groupEntries_append, List.self_eq_append_right] at h
    rw [eq_nil_of_groupEntries (fun batch he => hb batch (by simp [he])) h, List.append_nil]
  · rw [groupEntries_append, List.append_right_eq_self] at h
    rw [eq_nil_of_groupEntries (fun batch he => ha batch (by simp [he])) h, List.append_nil]

/-- A partition of a list of batches is known from the entries of its groups. -/
theorem partition_eq_of_groupEntries {p q : List (List WriteBatch)}
    (hp : ∀ batches ∈ p, Admitted batches) (hq : ∀ batches ∈ q, Admitted batches)
    (hflatten : p.flatten = q.flatten) (h : p.map groupEntries = q.map groupEntries) : p = q := by
  induction p generalizing q with
  | nil => exact (List.map_eq_nil_iff.mp h.symm).symm
  | cons a p ih =>
    obtain ⟨b, q, rfl⟩ : ∃ b r, q = b :: r := by
      cases q with
      | nil => simp at h
      | cons b q => exact ⟨b, q, rfl⟩
    obtain ⟨hhead, htail⟩ := List.cons.inj h
    obtain rfl := front_eq_of_groupEntries hflatten (hp a (by simp)).2 (hq b (by simp)).2 hhead
    rw [ih (fun _ hb => hp _ (by simp [hb])) (fun _ hb => hq _ (by simp [hb]))
      (List.append_cancel_left hflatten) htail]

theorem decoded_eq_of_encodeLog_eq {host : Host} {as bs : List Group} (has : ∀ g ∈ as, g.Fits)
    (hbs : ∀ g ∈ bs, g.Fits) (h : encodeLog host as = encodeLog host bs) :
    as.map Group.decoded = bs.map Group.decoded := by
  have ha := decodeLog_encodeLog_tornTail has (tornTail_nil host)
  have hb := decodeLog_encodeLog_tornTail hbs (tornTail_nil host)
  rw [h, hb] at ha
  exact (congrArg DecodeResult.batches (Except.ok.inj ha)).symm

/-- However a list of batches is divided into groups, successful groups leave the same table and
the same counter, and recovery rebuilds that table from either log, although two different
divisions leave different logs. -/
theorem grouping_unobservable (host : Host) (w : World) (hw : Reachable (sessions host) w) (db : DB)
    (hopen : w.db = some db) (p q : List (WriteIo × List WriteBatch))
    (hp : ∀ batches ∈ p.map Prod.snd, Admitted batches)
    (hq : ∀ batches ∈ q.map Prod.snd, Admitted batches)
    (hsame : (p.map Prod.snd).flatten = (q.map Prod.snd).flatten) (dbP dbQ : DB)
    (fileP fileQ : Bytes) (hrunP : db.writeGroups host p w.file = some (dbP, fileP))
    (hrunQ : db.writeGroups host q w.file = some (dbQ, fileQ)) :
    dbP.memtable.slot host = dbQ.memtable.slot host ∧ dbP.nextSequence = dbQ.nextSequence ∧
      (∀ ioP ioQ : RecoverIo, ioP.Whole host fileP → ioQ.Whole host fileQ →
        ∃ recoveredP recoveredQ, DB.recover host ioP fileP {} = (.Ok, recoveredP, fileP) ∧
          DB.recover host ioQ fileQ {} = (.Ok, recoveredQ, fileQ) ∧
          recoveredP.memtable.slot host = dbP.memtable.slot host ∧
          recoveredQ.memtable.slot host = dbP.memtable.slot host) ∧
      (p.map Prod.snd ≠ q.map Prod.snd → fileP ≠ fileQ) := by
  obtain ⟨hfits, -, hstate⟩ := consistent_of_reachable hw
  rw [hopen] at hstate
  obtain ⟨hopenP, hfitsP, hnextP⟩ := OpenOn.writeGroups hstate hfits hrunP
  obtain ⟨hopenQ, hfitsQ, hnextQ⟩ := OpenOn.writeGroups hstate hfits hrunQ
  rw [List.drop_nil] at hopenP hopenQ
  have htable : committedTable (w.committed ++ numberGroups db.nextSequence (p.map Prod.snd)) =
      committedTable (w.committed ++ numberGroups db.nextSequence (q.map Prod.snd)) := by
    simp only [committedTable, List.flatMap_append, flatMap_updates_numberGroups, hsame]
  refine ⟨?_, by rw [hnextP, hnextQ, hsame], fun ioP ioQ hioP hioQ => ?_, fun hne hfile => ?_⟩
  · rw [hopenP.slot, hopenQ.slot, htable]
  · rw [hopenP.slot]
    obtain ⟨recoveredP, hrecoverP, hdbP⟩ := hopenP.recover hfitsP hioP
    obtain ⟨recoveredQ, hrecoverQ, hdbQ⟩ := hopenQ.recover hfitsQ hioQ
    exact ⟨recoveredP, recoveredQ, hrecoverP, hrecoverQ, hdbP.slot, hdbQ.slot.trans htable.symm⟩
  · -- Equal logs have equal records, and the entries of the records give the division away.
    apply hne
    apply partition_eq_of_groupEntries hp hq hsame
    rw [hopenP.file_eq, hopenQ.file_eq, List.append_nil, List.append_nil] at hfile
    have hdecoded := decoded_eq_of_encodeLog_eq hfitsP hfitsQ hfile
    rw [List.map_append, List.map_append, List.append_cancel_left_eq] at hdecoded
    have hentries := congrArg (List.map fun d => d.batch.entries) hdecoded
    simp only [List.map_map] at hentries
    rw [← map_batches_numberGroups db.nextSequence (p.map Prod.snd),
      ← map_batches_numberGroups db.nextSequence (q.map Prod.snd), List.map_map, List.map_map]
    exact hentries

theorem grouping_unobservable_two_batches :
    ∃ dbP fileP dbQ fileQ,
      ({} : DB).writeGroups .sample [(.success 42, [.put .new [97] [49], .delete .new [97]])] [] =
        some (dbP, fileP) ∧
      ({} : DB).writeGroups .sample
          [(.success 32, [.put .new [97] [49]]), (.success 31, [.delete .new [97]])] [] =
        some (dbQ, fileQ) ∧
      dbP.memtable.slot .sample = dbQ.memtable.slot .sample ∧
      dbP.nextSequence = dbQ.nextSequence ∧ fileP ≠ fileQ := by
  have hopen : Reachable (sessions .sample) { db := some {} } :=
    .step (.initial rfl) (.opens { readv := .done 0 } ⟨rfl, rfl, rfl, rfl⟩ rfl)
  obtain ⟨⟨dbP, fileP⟩, hp⟩ := Option.isSome_iff_exists.mp (show (({} : DB).writeGroups .sample
    [(.success 42, [.put .new [97] [49], .delete .new [97]])] []).isSome = true by decide +kernel)
  obtain ⟨⟨dbQ, fileQ⟩, hq⟩ := Option.isSome_iff_exists.mp (show (({} : DB).writeGroups .sample
    [(.success 32, [.put .new [97] [49]]), (.success 31, [.delete .new [97]])] []).isSome = true by
      decide +kernel)
  obtain ⟨hslot, hnext, -, hfile⟩ := grouping_unobservable .sample _ hopen _ rfl _ _ (by decide)
    (by decide) (by decide) dbP dbQ fileP fileQ hp hq
  exact ⟨dbP, fileP, dbQ, fileQ, hp, hq, hslot, hnext, hfile (by decide)⟩

end StorageEngine
