import StorageEngine.Db.Sessions

/-! Loss of power.  A file has a name and contents, and each of them is durable on its own:
`fdatasync` makes the contents durable, and the name becomes durable when the directory is synced.
`Open` creates `wal.log` and `writeGroup` syncs its contents, but no call of either syncs the
directory.  The directory itself is taken to be on disk. -/

namespace StorageEngine

open Wal Io Transition

/-- The name `wal.log`: there is none, it was created since the directory was last synced, or it is
on disk. -/
inductive DirectoryEntry where
  | absent
  | created
  | durable
  deriving DecidableEq

/-- The directory of a database, with the sessions on its log and the groups whose writers were told
that they succeeded. -/
structure Directory where
  entry : DirectoryEntry := .absent
  world : World := {}
  acknowledged : List Group := []

/-- A session stops where it is, between two groups or within one. -/
def World.Stops (host : Host) (w w' : World) : Prop := w'.db = none ∧ (w' = w ∨ Step host w w')

namespace Directory

/-- What the engine does in its directory: it creates the log, opens, closes, or crashes, and
acknowledges groups.  The directory is synced only by something else, if `external` allows it. -/
inductive Step (host : Host) (external : Prop) : Directory → Directory → Prop
  | create {d : Directory} (habsent : d.entry = .absent) :
      Step host external d { d with entry := .created }
  | session {d : Directory} {w : World} (hpresent : d.entry ≠ .absent)
      (hstep : StorageEngine.Step host d.world w) (hclosed : d.world.db = none ∨ w.db = none) :
      Step host external d { d with world := w }
  | group {d : Directory} {file : Bytes} {synced committed : List Group} {db : DB} (io : WriteIo)
      (batches : List WriteBatch) (hworld : d.world = ⟨file, some db, synced, committed⟩)
      (hbatches : Admitted batches) (hok : (db.writeGroup host io batches file).1.ok = true) :
      Step host external d { d with
        world := ⟨(db.writeGroup host io batches file).2.2,
          some (db.writeGroup host io batches file).2.1,
          synced ++ [db.nextGroup batches], committed ++ [db.nextGroup batches]⟩
        acknowledged := d.acknowledged ++ [db.nextGroup batches] }
  | sync {d : Directory} (hexternal : external) (hcreated : d.entry = .created) :
      Step host external d { d with entry := .durable }

/-- Without power the contents of the log are those of a crash, and a name that is not on disk may
be gone. -/
inductive PowerLoss (host : Host) : Directory → Directory → Prop
  | kept {d : Directory} {w : World} (hpresent : d.entry ≠ .absent)
      (hstops : d.world.Stops host w) :
      PowerLoss host d { d with entry := .durable, world := w }
  | lost {d : Directory} (hvolatile : d.entry ≠ .durable) :
      PowerLoss host d { acknowledged := d.acknowledged }

/-- Whether `Open` restores a log that holds every acknowledged group.  When it finds no log it
starts from an empty file. -/
def Recovers (host : Host) (d : Directory) : Prop :=
  ∀ io : RecoverIo, io.Whole host d.world.file →
    ∃ db groups, DB.openDb host { recover := io } d.world.file = (.ok db, encodeLog host groups) ∧
      db.memtable.slot host = committedTable groups ∧ d.acknowledged.Sublist groups

/-- Every loss of power leaves the log in the directory, with every acknowledged group. -/
def Survives (host : Host) (d : Directory) : Prop :=
  ∀ d', PowerLoss host d d' → d'.entry ≠ .absent ∧ d'.Recovers host

end Directory

def directory (host : Host) (external : Prop) : System Directory where
  initial d := d = {}
  step := Directory.Step host external

theorem Step.synced_prefix {host : Host} {w w' : World} (hstep : Step host w w') :
    w.synced <+: w'.synced := by
  cases hstep with
  | opens => exact List.prefix_rfl
  | group => exact List.prefix_append ..
  | close => exact List.prefix_rfl
  | crash => exact List.prefix_append ..

section Steps

variable {host : Host} {external : Prop} {d : Directory}

theorem World.Stops.reachable {w w' : World} (h : w.Stops host w')
    (hw : Reachable (sessions host) w) : Reachable (sessions host) w' := by
  obtain ⟨-, rfl | hstep⟩ := h
  · exact hw
  · exact hw.step hstep

theorem World.Stops.synced_prefix {w w' : World} (h : w.Stops host w') :
    w.synced <+: w'.synced := by
  obtain ⟨-, rfl | hstep⟩ := h
  · exact List.prefix_rfl
  · exact hstep.synced_prefix

namespace Directory

/-- The log of a directory goes through sessions, and acknowledged groups were synced. -/
theorem sessions_of_reachable (h : Reachable (directory host external) d) :
    Reachable (sessions host) d.world ∧ d.acknowledged.Sublist d.world.synced := by
  refine h.invariant (p := fun d => Reachable (sessions host) d.world ∧
    d.acknowledged.Sublist d.world.synced) ?_ ?_
  · rintro d rfl
    exact ⟨.initial rfl, .refl _⟩
  · rintro d d' - ⟨hworld, hkept⟩ hstep
    cases hstep with
    | create => exact ⟨hworld, hkept⟩
    | session hpresent hstep hclosed =>
      exact ⟨hworld.step hstep, hkept.trans hstep.synced_prefix.sublist⟩
    | group io batches heq hbatches hok =>
      rw [heq] at hworld hkept
      exact ⟨hworld.step (.group io batches hbatches hok), hkept.append (.refl _)⟩
    | sync => exact ⟨hworld, hkept⟩

/-- Whatever the engine does, the name of the log does not become durable. -/
theorem entry_ne_durable (h : Reachable (directory host False) d) : d.entry ≠ .durable := by
  refine h.invariant (p := fun d => d.entry ≠ .durable) ?_ ?_
  · rintro d rfl
    simp
  · intro d d' _ hentry hstep
    cases hstep with
    | create => simp
    | session => exact hentry
    | group => exact hentry
    | sync hexternal => exact hexternal.elim

theorem recovers_of_kept (h : Reachable (directory host external) d) {w : World}
    (hstops : d.world.Stops host w) :
    Recovers host { d with entry := .durable, world := w } := by
  intro io hio
  obtain ⟨hworld, hkept⟩ := sessions_of_reachable h
  have hconsistent := consistent_of_reachable (hstops.reachable hworld)
  obtain ⟨db, hrecover, hdb⟩ := hconsistent.recover hstops.1 hio
  refine ⟨db, w.committed, DB.openDb_of_recover hrecover, hdb.slot, ?_⟩
  exact (hkept.trans hstops.synced_prefix.sublist).trans hconsistent.kept

/-- An empty directory has no acknowledged group to give back. -/
theorem not_recovers_of_lost (host : Host) {acknowledged : List Group}
    (hacknowledged : acknowledged ≠ []) : ¬Recovers host { acknowledged } := by
  intro hrecovers
  have hio := RecoverIo.exists_whole host (show ([] : Bytes).length < 2 ^ 31 by decide)
  obtain ⟨db, groups, hopen, -, hkept⟩ := hrecovers _ hio
  have hlog : encodeLog host groups = [] := (congrArg Prod.snd hopen).symm
  rw [(encodeLog_eq_nil_iff host groups).mp hlog] at hkept
  exact hacknowledged (List.sublist_nil.mp hkept)

end Directory

end Steps

/-- The acknowledged groups of a new database survive every loss of power if and only if something
has synced the directory. -/
theorem acknowledged_groups_survive_iff (host : Host) (external : Prop) (d : Directory)
    (hd : Reachable (directory host external) d) (hacknowledged : d.acknowledged ≠ []) :
    d.Survives host ↔ d.entry = .durable := by
  constructor
  · intro hsurvives
    by_contra hvolatile
    exact Directory.not_recovers_of_lost host hacknowledged (hsurvives _ (.lost hvolatile)).2
  · intro hdurable d' hloss
    cases hloss with
    | kept hpresent hstops => exact ⟨by simp, Directory.recovers_of_kept hd hstops⟩
    | lost hvolatile => exact absurd hdurable hvolatile

/-- The directory after the first `Open`. -/
theorem Directory.reachable_opened (external : Prop) :
    Reachable (directory .sample external) { entry := .created, world := { db := some {} } } := by
  have h : Reachable (directory .sample external) {} := .initial rfl
  have hcreated := h.step (.create rfl)
  exact hcreated.step (.session (by simp) (.opens { readv := .done 0 } ⟨rfl, rfl, rfl, rfl⟩ rfl)
    (.inl rfl))

theorem acknowledged_groups_survive_in_synced_directory :
    ∃ d : Directory, Reachable (directory .sample True) d ∧
      d.acknowledged = [.put 1 [97] [49]] ∧ d.Survives .sample := by
  have h := (Directory.reachable_opened True).step (.sync trivial rfl)
  have h := h.step (.group (.success 32) [.put .new [97] [49]] rfl (by decide) (by decide +kernel))
  exact ⟨_, h, rfl,
    (acknowledged_groups_survive_iff .sample True _ h (List.cons_ne_nil _ _)).mpr rfl⟩

/-- A new database acknowledges `Put("a", "1")`; after a loss of power the directory is empty, and
the database that `Open` makes of it does not know the key. -/
theorem first_put_lost :
    ∃ d d' : Directory, Reachable (directory .sample False) d ∧
      d.acknowledged = [.put 1 [97] [49]] ∧ Directory.PowerLoss .sample d d' ∧
      d'.entry = .absent ∧ ¬d'.Recovers .sample ∧ ¬d.Survives .sample ∧
      ∃ db, DB.openDb .sample { recover := { readv := .done 0 } } d'.world.file = (.ok db, []) ∧
        db.memtable.get .sample [97] = .error (.notFound "key not found") := by
  have h := (Directory.reachable_opened False).step
    (.group (.success 32) [.put .new [97] [49]] rfl (by decide) (by decide +kernel))
  have hvolatile := Directory.entry_ne_durable h
  have hlost := fun group => Directory.not_recovers_of_lost .sample (List.cons_ne_nil group [])
  refine ⟨_, _, h, rfl, .lost hvolatile, rfl, hlost _, ?_, {}, rfl, rfl⟩
  intro hsurvives
  exact hlost _ (hsurvives _ (.lost hvolatile)).2

end StorageEngine
