import StorageEngine.Db.Grouping

/-! Two databases on one directory.  `Open` takes no lock, and each database writes behind the log
that it found when it was opened. -/

namespace StorageEngine

open Wal Io Transition

/-- Two databases are open on one log, and the first one's groups are all acknowledged before those
of the second one.  The second one's records cover as many bytes of the first one's records as they
have themselves, and the rest is left behind them; so recovery finds none of the first one's groups
when the second one's records are as long, although the first database still shows them. -/
theorem second_instance_overwrites (host : Host) (w : World) (hw : Reachable (sessions host) w)
    (first second : DB) (hfirst : w.db = some first) (ioOpen : RecoverIo)
    (hioOpen : ioOpen.Whole host w.file)
    (hsecond : DB.openDb host { recover := ioOpen } w.file = (.ok second, w.file))
    (as bs : List (WriteIo × List WriteBatch)) (firstAfter secondAfter : DB) (file after : Bytes)
    (has : first.writeGroups host as w.file = some (firstAfter, file))
    (hbs : second.writeGroups host bs file = some (secondAfter, after)) (io : RecoverIo)
    (hio : io.Whole host after) :
    let lost := numberGroups first.nextSequence (as.map Prod.snd)
    let kept := numberGroups second.nextSequence (bs.map Prod.snd)
    firstAfter.memtable.slot host = committedTable (w.committed ++ lost) ∧
      after = encodeLog host (w.committed ++ kept) ++
        (encodeLog host lost).drop (encodeLog host kept).length ∧
      ((∃ opened result, DB.recover host io after {} = (.Ok, opened, result) ∧
          opened.memtable.slot host = committedTable (w.committed ++ kept)) ↔
        Harmless host (w.committed ++ kept)
          ((encodeLog host lost).drop (encodeLog host kept).length)) ∧
      ((encodeLog host lost).length ≤ (encodeLog host kept).length →
        ∃ opened, DB.recover host io after {} = (.Ok, opened, after) ∧
          opened.memtable.slot host = committedTable (w.committed ++ kept)) := by
  intro lost kept
  obtain ⟨hfits, -, hstate⟩ := consistent_of_reachable hw
  rw [hfirst] at hstate
  have hopenFirst := (OpenOn.writeGroups hstate hfits has).1
  rw [List.drop_nil] at hopenFirst
  have hclosed : ClosedOn host w.committed w.file := ⟨[], tornTail_nil host, hstate.file_eq⟩
  have hopenSecond := (hclosed.openDb hfits hioOpen hsecond).1
  -- For the second database, the first one's records are bytes behind the log.
  have hover : OpenOn host w.committed (encodeLog host lost) file second :=
    { file_eq := by rw [hopenFirst.file_eq, encodeLog_append, List.append_nil]
      walOffset := hopenSecond.walOffset
      slot := hopenSecond.slot }
  obtain ⟨hafter, hfitsAfter, -⟩ := hover.writeGroups hfits hbs
  have hfile := hafter.file_eq
  refine ⟨hopenFirst.slot, hfile, ?_, fun hlength => ?_⟩
  · rw [hfile] at hio ⊢
    exact DB.recover_append_iff hfitsAfter hio
  · rw [List.drop_eq_nil_of_le hlength] at hafter
    obtain ⟨opened, hrecover, hopened⟩ := hafter.recover hfitsAfter hio
    exact ⟨opened, hrecover, hopened.slot⟩

/-- Both databases are opened on an empty log and put one key each. -/
theorem second_instance_overwrites_put :
    ∃ (w : World) (first second firstAfter secondAfter : DB) (file after : Bytes),
      Reachable (sessions .sample) w ∧ w.db = some first ∧
        first.writeGroups .sample [(.success 32, [.put .new [97] [49]])] w.file =
          some (firstAfter, file) ∧
        second.writeGroups .sample [(.success 32, [.put .new [98] [50]])] file =
          some (secondAfter, after) ∧
        firstAfter.memtable.slot .sample = committedTable [.put 1 [97] [49]] ∧
        ∃ opened, DB.recover .sample { readv := .done 32 } after {} = (.Ok, opened, after) ∧
          opened.memtable.slot .sample = committedTable [.put 1 [98] [50]] := by
  have hopen : Reachable (sessions .sample) { db := some {} } :=
    .step (.initial rfl) (.opens { readv := .done 0 } ⟨rfl, rfl, rfl, rfl⟩ rfl)
  have hgroups : ∀ (file : Bytes) (batches : List WriteBatch),
      (({} : DB).writeGroup .sample (.success 32) batches file).1.ok = true →
      ({} : DB).writeGroups .sample [(.success 32, batches)] file =
        some (({} : DB).writeGroup .sample (.success 32) batches file).2 := by
    intro file batches hok
    simp [DB.writeGroups, DB.runGroups, hok]
  have hfirst := hgroups [] [.put .new [97] [49]] (by decide +kernel)
  have hsecond := hgroups (({} : DB).writeGroup .sample (.success 32) [.put .new [97] [49]] []).2.2
    [.put .new [98] [50]] (by decide +kernel)
  obtain ⟨hshown, -, -, hrecovers⟩ := second_instance_overwrites .sample _ hopen {} {} rfl
    { readv := .done 0 } ⟨rfl, rfl, rfl, rfl⟩ rfl _ _ _ _ _ _ hfirst hsecond
    { readv := .done 32 } ⟨rfl, by decide +kernel, rfl, rfl⟩
  exact ⟨_, _, _, _, _, _, _, hopen, rfl, hfirst, hsecond, hshown, hrecovers (by decide +kernel)⟩

end StorageEngine
