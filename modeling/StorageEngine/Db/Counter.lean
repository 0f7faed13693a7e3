import Mathlib.Data.List.Chain
import StorageEngine.Db.Grouping
import StorageEngine.Db.Sequences

/-! The sequence counter over clean sessions.  A group moves the counter to the end of its range,
and `recover` takes the greatest end of a range for the greatest number in use and adds one to it.
A session that commits a group is therefore followed by one that starts one number later than it
ended, and the numbers in the log have a gap there. -/

namespace StorageEngine

open Wal Io

/-! ### Contiguous ranges -/

/-- Each record starts where the one before it ends. -/
def Contiguous (batches : List DecodedBatch) : Prop :=
  batches.IsChain fun a b =>
    b.baseSequence = a.baseSequence + BitVec.ofNat 64 a.batch.entries.length

theorem contiguous_numberGroups (base : BitVec 64) (parts : List (List WriteBatch)) :
    Contiguous ((numberGroups base parts).map Group.decoded) := by
  induction parts generalizing base with
  | nil => exact .nil
  | cons batches rest ih =>
    cases rest with
    | nil => exact .singleton _
    | cons next rest => exact List.isChain_cons_cons.mpr ⟨rfl, ih _⟩

theorem numberGroups_eq_nil_iff (base : BitVec 64) (parts : List (List WriteBatch)) :
    numberGroups base parts = [] ↔ parts = [] := by
  cases parts <;> simp [numberGroups]

theorem foldl_max_numberGroups (base : BitVec 64) (parts : List (List WriteBatch)) (m : Nat)
    (h : base.toNat + (groupEntries parts.flatten).length < 2 ^ 64) (hparts : parts ≠ []) :
    ((numberGroups base parts).map Group.limit).foldl max m =
      max m (base.toNat + (groupEntries parts.flatten).length) := by
  induction parts generalizing base m with
  | nil => contradiction
  | cons batches rest ih =>
    rw [groupEntries_flatten_cons, List.length_append] at h ⊢
    have hbase : (base + BitVec.ofNat 64 (groupEntries batches).length).toNat =
        base.toNat + (groupEntries batches).length := toNat_add_ofNat (by omega)
    have hlimit : (Group.limit ⟨base, batches⟩) = base.toNat + (groupEntries batches).length := rfl
    rw [numberGroups, List.map_cons, List.foldl_cons, hlimit]
    by_cases hrest : rest = []
    · subst hrest
      simp [numberGroups]
    · rw [ih _ _ (by omega) hrest]
      omega

section Behind

variable {groups : List Group} {base : BitVec 64} {parts : List (List WriteBatch)}
  (hbase : base.toNat = lastLimit groups + 1)

include hbase

/-- Groups behind a log end where their counter ends. -/
theorem lastLimit_append_numberGroups
    (h : base.toNat + (groupEntries parts.flatten).length < 2 ^ 64) (hparts : parts ≠ []) :
    lastLimit (groups ++ numberGroups base parts) =
      base.toNat + (groupEntries parts.flatten).length := by
  rw [lastLimit, List.map_append, List.foldl_append, foldl_max_numberGroups base parts _ h hparts]
  show max (lastLimit groups) _ = _
  omega

/-- Groups that start one behind the end of a log leave a gap, unless there is nothing on one of
the sides. -/
theorem contiguous_append_iff (hgroups : ∀ g ∈ groups, g.limit < 2 ^ 64) :
    Contiguous ((groups ++ numberGroups base parts).map Group.decoded) ↔
      Contiguous (groups.map Group.decoded) ∧ (groups = [] ∨ parts = []) := by
  rw [List.map_append, Contiguous, List.isChain_append]
  refine and_congr_right fun _ => ⟨fun ⟨_, hjoint⟩ => ?_, fun hempty => ?_⟩
  · -- The last group in the log ends below the base of the first one behind it.
    by_contra hboth
    obtain ⟨hgroups', hparts⟩ := not_or.mp hboth
    obtain ⟨batches, rest, rfl⟩ := List.exists_cons_of_ne_nil hparts
    have hlast := List.getLast_mem hgroups'
    have hgap := hjoint (groups.getLast hgroups').decoded
      (by rw [List.getLast?_map, List.getLast?_eq_some_getLast hgroups']; rfl) _ rfl
    have hnat := congrArg BitVec.toNat hgap
    have hle := limit_le_lastLimit hlast
    have hend : ((groups.getLast hgroups').decoded.baseSequence +
        BitVec.ofNat 64 (groups.getLast hgroups').decoded.batch.entries.length).toNat =
          (groups.getLast hgroups').limit := toNat_add_ofNat (hgroups _ hlast)
    rw [hend] at hnat
    have hfirst : base.toNat = (groups.getLast hgroups').limit := hnat
    omega
  · refine ⟨contiguous_numberGroups base parts, ?_⟩
    rcases hempty with rfl | rfl
    · simp
    · simp [numberGroups]

end Behind

/-! ### Sessions -/

/-- A session on the log `file`: the database is opened, all groups of `parts` succeed, and it is
closed with the counter below `2^64 - 1`. -/
inductive CleanSession (host : Host) (file : Bytes) (parts : List (WriteIo × List WriteBatch))
    (final : DB) (after : Bytes) : Prop
  | mk (io : RecoverIo) (opened : DB) (log : Bytes) (hio : io.Whole host file)
      (hopen : DB.recover host io file {} = (.Ok, opened, log))
      (hgroups : opened.writeGroups host parts log = some (final, after))
      (hcounter : opened.nextSequence.toNat +
        (groupEntries (parts.map Prod.snd).flatten).length < 2 ^ 64 - 1)

/-- The log after sessions one after the other, from an empty file on. -/
inductive CleanRun (host : Host) : List (List (WriteIo × List WriteBatch)) → Bytes → Prop
  | start : CleanRun host [] []
  | session {past : List (List (WriteIo × List WriteBatch))} {file after : Bytes}
      {parts : List (WriteIo × List WriteBatch)} {final : DB} (hpast : CleanRun host past file)
      (hsession : CleanSession host file parts final after) : CleanRun host (past ++ [parts]) after

/-- How many sessions committed a group. -/
def committing (run : List (List (WriteIo × List WriteBatch))) : Nat :=
  run.countP fun parts => !parts.isEmpty

theorem committing_append (run : List (List (WriteIo × List WriteBatch)))
    (parts : List (WriteIo × List WriteBatch)) :
    committing (run ++ [parts]) = committing run + if parts = [] then 0 else 1 := by
  rw [committing, List.countP_append, committing]
  cases parts <;> rfl

/-- The log of a run of sessions. -/
structure LogOf (host : Host) (run : List (List (WriteIo × List WriteBatch)))
    (groups : List Group) (file : Bytes) : Prop where
  file_eq : file = encodeLog host groups
  fits : ∀ g ∈ groups, g.Fits
  below : ∀ g ∈ groups, g.limit + 1 < 2 ^ 64
  empty : groups = [] ↔ committing run = 0
  contiguous : Contiguous (groups.map Group.decoded) ↔ committing run ≤ 1

section Session

variable {host : Host} {run : List (List (WriteIo × List WriteBatch))} {groups : List Group}
  {file after : Bytes} {parts : List (WriteIo × List WriteBatch)} {final : DB}

/-- The groups that a session adds to the log, behind a gap if the log was not empty. -/
theorem LogOf.session (h : LogOf host run groups file)
    (hsession : CleanSession host file parts final after) :
    ∃ base : BitVec 64,
      base.toNat = lastLimit groups + 1 ∧
      base.toNat + (groupEntries (parts.map Prod.snd).flatten).length < 2 ^ 64 - 1 ∧
      final.nextSequence =
        base + BitVec.ofNat 64 (groupEntries (parts.map Prod.snd).flatten).length ∧
      LogOf host (run ++ [parts]) (groups ++ numberGroups base (parts.map Prod.snd)) after := by
  obtain ⟨io, opened, log, hio, hopen, hgroups, hcounter⟩ := hsession
  have hfile := h.file_eq
  subst hfile
  obtain ⟨db, hrecover, hdb⟩ := DB.recover_whole h.fits (tornTail_nil host)
    (by rwa [List.append_nil])
  rw [List.append_nil, hopen] at hrecover
  obtain ⟨rfl, rfl⟩ : opened = db ∧ log = encodeLog host groups := by simpa using hrecover
  have hbase := hdb.toNat_nextSequence h.below
  have hstart : OpenOn host groups [] (encodeLog host groups) opened :=
    ⟨(List.append_nil _).symm, hdb.walOffset, hdb.slot⟩
  obtain ⟨hopenOn, hfits, hfinal⟩ := hstart.writeGroups h.fits hgroups
  refine ⟨opened.nextSequence, hbase, hcounter, hfinal,
    by rw [hopenOn.file_eq, List.drop_nil, List.append_nil], hfits, ?_, ?_, ?_⟩
  · intro g hg
    have hle : lastLimit (groups ++ numberGroups opened.nextSequence (parts.map Prod.snd)) ≤
        opened.nextSequence.toNat + (groupEntries (parts.map Prod.snd).flatten).length := by
      by_cases hparts : parts.map Prod.snd = []
      · rw [hparts, numberGroups, List.append_nil]
        omega
      · exact Nat.le_of_eq (lastLimit_append_numberGroups hbase (by omega) hparts)
    have := limit_le_lastLimit hg
    omega
  · rw [List.append_eq_nil_iff, numberGroups_eq_nil_iff, h.empty, committing_append]
    by_cases hparts : parts = []
    · simp [hparts]
    · simp [hparts]
  · rw [contiguous_append_iff hbase fun g hg => Nat.lt_of_succ_lt (h.below g hg), h.contiguous,
      h.empty, committing_append]
    by_cases hparts : parts = []
    · simp [hparts]
    · simp [hparts]
      omega

end Session

theorem exists_logOf {host : Host} {run : List (List (WriteIo × List WriteBatch))} {file : Bytes}
    (h : CleanRun host run file) : ∃ groups, LogOf host run groups file := by
  induction h with
  | start =>
    exact ⟨[], rfl, by simp, by simp, by simp [committing], by simp [Contiguous, committing]⟩
  | session _ hsession ih =>
    obtain ⟨groups, hgroups⟩ := ih
    obtain ⟨base, -, -, -, hlog⟩ := hgroups.session hsession
    exact ⟨_, hlog⟩

/-- After a clean session, recovery finds the counter where the session left it exactly when the
session committed no group, and the ranges of the records in the log are contiguous exactly when at
most one of all sessions committed any. -/
theorem counter_restored_iff (host : Host) (past : List (List (WriteIo × List WriteBatch)))
    (file : Bytes) (hpast : CleanRun host past file) (parts : List (WriteIo × List WriteBatch))
    (final : DB) (after : Bytes) (hsession : CleanSession host file parts final after)
    (io : RecoverIo) (hio : io.Whole host after) :
    ∃ reopened result, DB.recover host io after {} = (.Ok, reopened, after) ∧
      decodeLog host after = .ok result ∧
      (reopened.nextSequence = final.nextSequence ↔ parts = []) ∧
      (Contiguous result.batches ↔ committing (past ++ [parts]) ≤ 1) := by
  obtain ⟨groups, hgroups⟩ := exists_logOf hpast
  obtain ⟨base, hbase, hcounter, hfinal, hlog⟩ := hgroups.session hsession
  have hfile := hlog.file_eq
  subst hfile
  obtain ⟨reopened, hrecover, hdb⟩ := DB.recover_whole hlog.fits (tornTail_nil host)
    (by rwa [List.append_nil])
  have hdecode := decodeLog_encodeLog_tornTail hlog.fits (tornTail_nil host)
  rw [List.append_nil] at hrecover hdecode
  refine ⟨reopened, _, hrecover, hdecode, ?_, hlog.contiguous⟩
  rw [← BitVec.toNat_inj, hdb.toNat_nextSequence hlog.below, hfinal,
    toNat_add_ofNat (by omega)]
  by_cases hparts : parts = []
  · subst hparts
    simp [numberGroups, hbase]
  · rw [lastLimit_append_numberGroups hbase (by omega) (by simpa using hparts)]
    simp [hparts]

/-- One `Put` ends its session with the counter at 2.  The next session starts at 3, and after one
more `Put` the log has no number 2. -/
theorem counter_skips_on_reopen :
    let first := DB.writeGroup .sample (.success 32) [.put .new [97] [49]] [] {}
    let reopened := DB.recover .sample { readv := .done 32 } first.2.2 {}
    let second := DB.writeGroup .sample (.success 32) [.put .new [98] [50]] reopened.2.2
      reopened.2.1
    first.1 = .Ok ∧ first.2.1.nextSequence = 2 ∧ reopened.1 = .Ok ∧
      reopened.2.1.nextSequence = 3 ∧ second.1 = .Ok ∧
      (decodeLog .sample second.2.2).map (fun result =>
        result.batches.map fun decoded => (decoded.baseSequence, decoded.batch.entries.length)) =
          .ok [(1, 1), (3, 1)] := by
  decide +kernel

/-- A session of one `Put` on an empty log. -/
theorem counter_restored_after_put :
    let parts := [(WriteIo.success 32, [WriteBatch.put .new [97] [49]])]
    let session := DB.writeGroup .sample (.success 32) [.put .new [97] [49]] [] {}
    ∃ reopened result,
      DB.recover .sample { readv := .done 32 } session.2.2 {} = (.Ok, reopened, session.2.2) ∧
      decodeLog .sample session.2.2 = .ok result ∧
      (reopened.nextSequence = session.2.1.nextSequence ↔ parts = []) ∧
      (Contiguous result.batches ↔ committing ([] ++ [parts]) ≤ 1) := by
  intro parts session
  have hok : session.1.ok = true := by decide +kernel
  have hgroups : ({} : DB).writeGroups .sample parts [] = some (session.2.1, session.2.2) :=
    (if_pos hok : ite _ (some (session.2.1, session.2.2)) none = _)
  exact counter_restored_iff .sample [] [] .start parts session.2.1 session.2.2
    (.mk { readv := .done 0 } {} [] ⟨rfl, rfl, rfl, rfl⟩ rfl hgroups (by decide +kernel))
    { readv := .done 32 } ⟨rfl, by decide +kernel, rfl, rfl⟩

end StorageEngine
