import StorageEngine.Db.Recovery
import StorageEngine.Lib.Transition

/-! Runs of sessions.  A session opens the database, commits groups, and ends in a clean close or in
a crash during one more group.  In every state of every run the file holds the records of the
committed groups, with at most a torn record behind them after a crash, and an open database holds
the table of the committed groups. -/

namespace StorageEngine

open Wal Io Transition

/-- A group that the queue hands to `writeGroup`: it has writers, and none has an empty batch. -/
def Admitted (batches : List WriteBatch) : Prop :=
  batches ≠ [] ∧ ∀ batch ∈ batches, batch.empty = false

instance (batches : List WriteBatch) : Decidable (Admitted batches) := by
  unfold Admitted; infer_instance

theorem eq_nil_of_groupEntries {batches : List WriteBatch}
    (hne : ∀ batch ∈ batches, batch.empty = false) (h : groupEntries batches = []) :
    batches = [] := by
  by_contra hcons
  obtain ⟨batch, rest, rfl⟩ := List.exists_cons_of_ne_nil hcons
  have hbatch := hne batch (by simp)
  rw [WriteBatch.empty, List.isEmpty_eq_false_iff] at hbatch
  exact hbatch (List.append_eq_nil_iff.mp h).1

/-- The log file and the open database, if there is one.  Two lists keep the history: the groups
whose sync succeeded, and the groups whose record was complete in the file when their call
returned or the process crashed. -/
structure World where
  file : Bytes := []
  db : Option DB := none
  synced : List Group := []
  committed : List Group := []

inductive Step (host : Host) : World → World → Prop
  | opens {file after : Bytes} {synced committed : List Group} {db : DB} (io : RecoverIo)
      (hio : io.Whole host file) (hopen : DB.openDb host { recover := io } file = (.ok db, after)) :
      Step host ⟨file, none, synced, committed⟩ ⟨after, some db, synced, committed⟩
  | group {file : Bytes} {synced committed : List Group} {db : DB} (io : WriteIo)
      (batches : List WriteBatch) (hbatches : Admitted batches)
      (hok : (db.writeGroup host io batches file).1.ok = true) :
      Step host ⟨file, some db, synced, committed⟩
        ⟨(db.writeGroup host io batches file).2.2, some (db.writeGroup host io batches file).2.1,
          synced ++ [db.nextGroup batches], committed ++ [db.nextGroup batches]⟩
  | close {file : Bytes} {synced committed : List Group} {db : DB} :
      Step host ⟨file, some db, synced, committed⟩ ⟨file, none, synced, committed⟩
  | crash {file : Bytes} {synced committed : List Group} {db : DB} (batches : List WriteBatch)
      (isSynced : Bool) (cut : Nat) (hbatches : Admitted batches)
      (hfits : (db.nextGroup batches).Fits)
      (hsynced : isSynced = true → ((db.nextGroup batches).encode host).length ≤ cut) :
      Step host ⟨file, some db, synced, committed⟩
        { file := file.take db.walOffset ++ ((db.nextGroup batches).encode host).take cut
          synced := synced ++ if isSynced then [db.nextGroup batches] else []
          committed := committed ++ if ((db.nextGroup batches).encode host).length ≤ cut
            then [db.nextGroup batches] else [] }

def sessions (host : Host) : System World where
  initial w := w = {}
  step := Step host

/-- A closed log holds the committed groups and a torn tail. -/
def ClosedOn (host : Host) (committed : List Group) (file : Bytes) : Prop :=
  ∃ tail, TornTail host tail ∧ file = encodeLog host committed ++ tail

/-- An open database and its file agree with the committed groups.  Failed groups may have left
bytes behind the log. -/
structure OpenOn (host : Host) (committed : List Group) (rest file : Bytes) (db : DB) : Prop where
  file_eq : file = encodeLog host committed ++ rest
  walOffset : db.walOffset = (encodeLog host committed).length
  slot : db.memtable.slot host = committedTable committed

structure Consistent (host : Host) (w : World) : Prop where
  fits : ∀ g ∈ w.committed, g.Fits
  kept : w.synced.Sublist w.committed
  state : match w.db with
    | none => ClosedOn host w.committed w.file
    | some db => OpenOn host w.committed [] w.file db

section Steps

variable {host : Host} {committed : List Group} {rest file : Bytes} {db : DB}

theorem ClosedOn.openDb (hfits : ∀ g ∈ committed, g.Fits) (h : ClosedOn host committed file)
    {io : RecoverIo} (hio : io.Whole host file) {after : Bytes}
    (hopen : DB.openDb host { recover := io } file = (.ok db, after)) :
    OpenOn host committed [] after db ∧ DB.Recovered host committed db := by
  obtain ⟨tail, htail, rfl⟩ := h
  obtain ⟨opened, hrecover, hdb⟩ := DB.recover_whole hfits htail hio
  rw [DB.openDb_of_recover hrecover] at hopen
  obtain ⟨hok, rfl⟩ := Prod.mk.inj hopen
  obtain rfl := Except.ok.inj hok
  exact ⟨⟨(List.append_nil _).symm, hdb.walOffset, hdb.slot⟩, hdb⟩

theorem OpenOn.starts_with_log (h : OpenOn host committed rest file db) :
    encodeLog host committed <+: file :=
  h.file_eq ▸ List.prefix_append ..

theorem OpenOn.writeAt (h : OpenOn host committed rest file db) (bytes : Bytes) :
    Io.writeAt file db.walOffset bytes =
      encodeLog host committed ++ bytes ++ rest.drop bytes.length := by
  rw [h.walOffset, h.file_eq, writeAt_of_le (by simp), splice_append]

theorem OpenOn.writeGroup (h : OpenOn host committed rest file db) {io : WriteIo}
    {batches : List WriteBatch} (hok : (db.writeGroup host io batches file).1.ok = true) :
    OpenOn host (committed ++ [db.nextGroup batches])
      (rest.drop ((db.nextGroup batches).encode host).length)
      (db.writeGroup host io batches file).2.2 (db.writeGroup host io batches file).2.1 := by
  rw [DB.status_writeGroup] at hok
  obtain ⟨-, after, hwrite, hcommits⟩ := DB.writeGroup_ok file hok
  rw [hwrite]
  constructor
  · rw [h.writeAt, encodeLog_append, encodeLog_singleton]
  · rw [hcommits.walOffset, h.walOffset, encodeLog_append, encodeLog_singleton,
      List.length_append]
  · rw [hcommits.slot, h.slot, committedTable_append]

theorem OpenOn.recover (h : OpenOn host committed [] file db) (hfits : ∀ g ∈ committed, g.Fits)
    {io : RecoverIo} (hio : io.Whole host file) :
    ∃ opened, DB.recover host io file {} = (.Ok, opened, file) ∧
      DB.Recovered host committed opened := by
  have hfile := h.file_eq
  obtain ⟨opened, hrecover, hopened⟩ := DB.recover_whole hfits (tornTail_nil host) (hfile ▸ hio)
  rw [List.append_nil] at hfile hrecover
  exact ⟨opened, hfile ▸ hrecover, hopened⟩

theorem OpenOn.crash (h : OpenOn host committed rest file db) {group : Group} (hgroup : group.Fits)
    (cut : Nat) :
    ClosedOn host (committed ++ if (group.encode host).length ≤ cut then [group] else [])
      (file.take db.walOffset ++ (group.encode host).take cut) := by
  rw [h.walOffset, h.file_eq, List.take_left' rfl]
  split
  · next hcut =>
    refine ⟨[], tornTail_nil host, ?_⟩
    rw [List.take_of_length_le hcut]
    simp
  · next hcut =>
    refine ⟨_, tornTail_take_encode host hgroup (Nat.lt_of_not_le hcut), ?_⟩
    simp

end Steps

theorem consistent_step {host : Host} {w w' : World} (h : Consistent host w)
    (hstep : Step host w w') : Consistent host w' := by
  obtain ⟨hfits, hkept, hstate⟩ := h
  cases hstep with
  | opens io hio hopen => exact ⟨hfits, hkept, (hstate.openDb hfits hio hopen).1⟩
  | group io batches hbatches hok =>
    refine ⟨?_, hkept.append (.refl _), by simpa using hstate.writeGroup hok⟩
    rw [DB.status_writeGroup] at hok
    obtain ⟨hgroup, -⟩ := DB.writeGroup_ok [] hok
    exact List.forall_mem_append.mpr ⟨hfits, List.forall_mem_singleton.mpr hgroup⟩
  | close => exact ⟨hfits, hkept, [], tornTail_nil host, hstate.file_eq⟩
  | crash batches isSynced cut hbatches hgroup hsynced =>
    refine ⟨?_, hkept.append ?_, hstate.crash hgroup cut⟩
    · refine List.forall_mem_append.mpr ⟨hfits, ?_⟩
      split
      · exact List.forall_mem_singleton.mpr hgroup
      · exact List.forall_mem_nil _
    · -- A group that was synced is complete.
      cases isSynced with
      | false => exact List.nil_sublist _
      | true => rw [if_pos (hsynced rfl)]; exact .refl _

theorem consistent_of_reachable {host : Host} {w : World} (h : Reachable (sessions host) w) :
    Consistent host w := by
  refine h.invariant (p := Consistent host) ?_ fun s t _ hs hst => consistent_step hs hst
  rintro w rfl
  exact ⟨by simp, .refl _, [], tornTail_nil host, rfl⟩

theorem exists_opens {host : Host} {w : World} (hw : Reachable (sessions host) w)
    (hclosed : w.db = none) (hsize : w.file.length < 2 ^ 31) :
    ∃ db, Step host w { w with file := encodeLog host w.committed, db := some db } := by
  obtain ⟨hfits, -, hstate⟩ := consistent_of_reachable hw
  obtain ⟨file, db, synced, committed⟩ := w
  obtain rfl : db = none := hclosed
  simp only at hstate hfits hsize ⊢
  obtain ⟨tail, htail, rfl⟩ := hstate
  have hio := RecoverIo.exists_whole host hsize
  obtain ⟨opened, hrecover, -⟩ := DB.recover_whole hfits htail hio
  exact ⟨opened, .opens _ hio (DB.openDb_of_recover hrecover)⟩

theorem Consistent.recover {host : Host} {w : World} (h : Consistent host w) (hclosed : w.db = none)
    {io : RecoverIo} (hio : io.Whole host w.file) :
    ∃ db, DB.recover host io w.file {} = (.Ok, db, encodeLog host w.committed) ∧
      DB.Recovered host w.committed db := by
  have hstate := h.state
  rw [hclosed] at hstate
  obtain ⟨tail, htail, hfile⟩ := hstate
  rw [hfile] at hio ⊢
  exact DB.recover_whole h.fits htail hio

/-- After any run of sessions, recovery succeeds.  It leaves exactly the committed groups in the
log, its table is that of the committed groups applied in order, and no group whose sync succeeded
is missing among them. -/
theorem recover_after_sessions (host : Host) (w : World) (hw : Reachable (sessions host) w)
    (hclosed : w.db = none) (io : RecoverIo) (hio : io.Whole host w.file) :
    ∃ db, DB.recover host io w.file {} = (.Ok, db, encodeLog host w.committed) ∧
      db.memtable.slot host = committedTable w.committed ∧ w.synced.Sublist w.committed := by
  have hconsistent := consistent_of_reachable hw
  obtain ⟨db, hrecover, hdb⟩ := hconsistent.recover hclosed hio
  exact ⟨db, hrecover, hdb.slot, hconsistent.kept⟩

theorem recover_after_torn_group :
    ∃ w : World, w.committed = [.put 1 [97] [49]] ∧ w.file.length = 37 ∧
      ∃ db, DB.recover .sample { readv := .done 37 } w.file {} =
          (.Ok, db, encodeLog .sample w.committed) ∧
        db.memtable.slot .sample = committedTable w.committed ∧ w.synced.Sublist w.committed := by
  have hopen : Reachable (sessions .sample) { db := some {} } :=
    .step (.initial rfl) (.opens { readv := .done 0 } ⟨rfl, rfl, rfl, rfl⟩ rfl)
  have hgroup := hopen.step (.group (.success 32) [.put .new [97] [49]] (by decide)
    (by decide +kernel))
  have hcrash := hgroup.step (.crash [.put .new [98] [50]] false 5 (by decide) (by decide +kernel)
    (by simp))
  refine ⟨_, ?_, ?_, recover_after_sessions .sample _ hcrash rfl _ ⟨rfl, ?_, rfl, rfl⟩⟩
  · decide +kernel
  · decide +kernel
  · decide +kernel

end StorageEngine
