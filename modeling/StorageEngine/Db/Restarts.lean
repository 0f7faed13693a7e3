import StorageEngine.Db.Sessions
import StorageEngine.Wal.Prefixes

/-! Recovery of what is left of a file, and recovery that does not come to its end.  `Open` may fail
at each of its calls, and the process may die while it recovers, before or after the torn tail is
cut off.  However often that happens, the log keeps the committed groups. -/

namespace StorageEngine

open Wal Io Transition

/-- A read that succeeds returns the whole file. -/
def RecoverIo.ReadsAll (host : Host) (io : RecoverIo) (file : Bytes) : Prop :=
  ∀ read, readAt host io.readv = .ok read → read = file.length

namespace DB

/-- Whatever the outcome, recovery keeps what was decoded. -/
theorem file_recover {host : Host} {io : RecoverIo} {file : Bytes} {decoded : DecodeResult}
    (hread : io.ReadsAll host file) (hdecode : decodeLog host file = .ok decoded) :
    ∃ cut, decoded.validBytes ≤ cut ∧ (recover host io file {}).2.2 = file.take cut := by
  have hsame : ∀ after : Bytes, after = file →
      ∃ cut, decoded.validBytes ≤ cut ∧ after = file.take cut := by
    rintro _ rfl
    exact ⟨_, validBytes_le hdecode, List.take_length.symm⟩
  cases hfstat : io.fstat with
  | some errno => exact hsame _ (by simp [recover, hfstat])
  | none =>
    cases hreadv : readAt host io.readv with
    | error status =>
      apply hsame
      simp only [recover, hfstat, hreadv]
      split <;> rfl
    | ok read =>
      obtain rfl := hread read hreadv
      rw [recover_decoded hfstat hreadv hdecode]
      split
      · cases io.ftruncate with
        | some errno => exact hsame _ rfl
        | none =>
          simp only
          split <;> exact ⟨_, Nat.le_refl _, rfl⟩
      · exact hsame _ rfl

theorem file_openDb {host : Host} {io : OpenIo} {file : Bytes} {decoded : DecodeResult}
    (hread : io.recover.ReadsAll host file) (hdecode : decodeLog host file = .ok decoded) :
    ∃ cut, decoded.validBytes ≤ cut ∧ (openDb host io file).2 = file.take cut := by
  have hsame : ∃ cut, decoded.validBytes ≤ cut ∧ file = file.take cut :=
    ⟨_, validBytes_le hdecode, List.take_length.symm⟩
  have hrecover := file_recover hread hdecode
  unfold openDb
  cases io.openWal with
  | some errno => exact hsame
  | none =>
    simp only
    split
    · exact hsame
    · split <;> exact hrecover

/-- Recovery of the first `cut` bytes of a file replays the longest front of the batches whose
records are complete there, and leaves these records and nothing else. -/
structure RecoversFront (host : Host) (file : Bytes) (batches : List DecodedBatch) (cut : Nat)
    (kept : DecodeResult) (outcome : Status × DB × Bytes) : Prop where
  status : outcome.1 = .Ok
  records : decodeLog host (file.take kept.validBytes) = .ok kept
  leaves : outcome.2.2 = file.take kept.validBytes
  slot : outcome.2.1.memtable.slot host =
    KeyedUpdates.run (fun _ => none) (kept.batches.flatMap DecodedBatch.updates)
  nextSequence : outcome.2.1.nextSequence = stdMax 1#64 (maxSequence kept.batches + 1#64)
  walOffset : outcome.2.1.walOffset = kept.validBytes
  front : kept.batches <+: batches
  inside : kept.validBytes ≤ cut
  longest : ∀ front cut', decodeLog host (file.take cut') = .ok front → front.validBytes ≤ cut →
    front.batches <+: kept.batches

/-- However a file that recovery accepts is cut short, recovery accepts what is left. -/
theorem recover_cut (host : Host) (file : Bytes) (result : DecodeResult)
    (h : decodeLog host file = .ok result) (cut : Nat) (io : RecoverIo)
    (hio : io.Whole host (file.take cut)) :
    ∃ kept, RecoversFront host file result.batches cut kept
      (recover host io (file.take cut) {}) := by
  obtain ⟨kept, hkept⟩ := exists_decodeLog_take h cut
  have hvalid := validBytes_le hkept
  rw [List.length_take] at hvalid
  have hfile : (file.take cut).take kept.validBytes = file.take kept.validBytes := by
    rw [List.take_take, Nat.min_eq_left (by omega)]
  have hrecover : recover host io (file.take cut) {} =
      (.Ok, ({} : DB).replay host kept, file.take kept.validBytes) := by
    rw [recover_decoded hio.fstat hio.readv hkept, hio.ftruncate, hio.fdatasync, hfile]
    by_cases hcut : kept.validBytes = (file.take cut).length
    · rw [if_neg (not_not.mpr hcut), ← hfile, hcut, List.take_length]
    · rw [if_pos hcut]
      rfl
  rw [hrecover]
  refine ⟨kept, rfl, hfile ▸ decodeLog_take hkept, rfl, ?_, nextSequence_replay host {} kept, rfl,
    ?_, by omega, ?_⟩
  · rw [slot_replay]
    show KeyedUpdates.run (MemTable.new.slot host) _ = _
    rw [MemTable.slot_new]
  · have hall : decodeLog host (file.take file.length) = .ok result := by rwa [List.take_length]
    exact batches_prefix_of_take hkept hall (by omega)
  · exact fun front cut' hfront hle => batches_prefix_of_take hfront hkept hle

/-- Two puts, of which the second loses its last byte. -/
theorem recover_cut_last_byte :
    let file := encodeLog .sample [.put 1 [97] [49], .put 2 [98] [50]]
    ∃ kept, RecoversFront .sample file [⟨1, .put .new [97] [49]⟩, ⟨2, .put .new [98] [50]⟩] 63 kept
      (recover .sample { readv := .done 63 } (file.take 63) {}) := by
  intro file
  have hdecode : decodeLog .sample file =
      .ok ⟨[⟨1, .put .new [97] [49]⟩, ⟨2, .put .new [98] [50]⟩], 64⟩ := by decide +kernel
  exact recover_cut .sample file _ hdecode 63 { readv := .done 63 }
    ⟨rfl, by decide +kernel, rfl, rfl⟩

end DB

/-! ### Runs with recoveries that fail -/

/-- The steps of sessions, an `Open` that fails, and a crash during recovery, which may or may not
have cut the file. -/
inductive Restart (host : Host) : World → World → Prop
  | session {w w' : World} (hstep : Step host w w') : Restart host w w'
  | openFails {file after : Bytes} {synced committed : List Group} (io : OpenIo) (status : Status)
      (hread : io.recover.ReadsAll host file)
      (hopen : DB.openDb host io file = (.error status, after)) :
      Restart host ⟨file, none, synced, committed⟩ ⟨after, none, synced, committed⟩
  | crash {file : Bytes} {synced committed : List Group} (decoded : DecodeResult) (cut : Nat)
      (hdecode : decodeLog host file = .ok decoded) (hcut : decoded.validBytes ≤ cut) :
      Restart host ⟨file, none, synced, committed⟩ ⟨file.take cut, none, synced, committed⟩

def restarts (host : Host) : System World where
  initial w := w = {}
  step := Restart host

section Restarts

variable {host : Host} {committed : List Group} {file : Bytes} {w w' : World}

theorem ClosedOn.decodeLog (h : ClosedOn host committed file) (hfits : ∀ g ∈ committed, g.Fits) :
    Wal.decodeLog host file = .ok
      { batches := committed.map Group.decoded
        validBytes := (encodeLog host committed).length } := by
  obtain ⟨tail, htail, rfl⟩ := h
  exact decodeLog_encodeLog_tornTail hfits htail

/-- A closed log may lose any part of its torn tail. -/
theorem ClosedOn.take (h : ClosedOn host committed file) {cut : Nat}
    (hcut : (encodeLog host committed).length ≤ cut) : ClosedOn host committed (file.take cut) := by
  obtain ⟨tail, htail, rfl⟩ := h
  refine ⟨_, htail.take (cut - (encodeLog host committed).length), ?_⟩
  rw [List.take_append, List.take_of_length_le hcut]

theorem consistent_restart (h : Consistent host w) (hst : Restart host w w') :
    Consistent host w' := by
  cases hst with
  | session hstep => exact consistent_step h hstep
  | openFails io status hread hopen =>
    obtain ⟨hfits, hkept, hstate⟩ := h
    obtain ⟨cut, hcut, hfile⟩ := DB.file_openDb hread (hstate.decodeLog hfits)
    rw [hopen] at hfile
    dsimp only at hfile
    subst hfile
    exact ⟨hfits, hkept, hstate.take hcut⟩
  | crash decoded cut hdecode hcut =>
    obtain ⟨hfits, hkept, hstate⟩ := h
    obtain rfl := Except.ok.inj (hdecode.symm.trans (hstate.decodeLog hfits))
    exact ⟨hfits, hkept, hstate.take hcut⟩

theorem consistent_of_restarts (h : Reachable (restarts host) w) : Consistent host w := by
  refine h.invariant (p := Consistent host) ?_ fun s t _ hs hst => consistent_restart hs hst
  rintro w rfl
  exact ⟨by simp, .refl _, [], tornTail_nil host, rfl⟩

end Restarts

/-- After any run of sessions, of opens that fail and of crashes during recovery, a recovery whose
calls succeed has exactly the committed groups, and no group whose sync succeeded is missing. -/
theorem recover_after_restarts (host : Host) (w : World) (hw : Reachable (restarts host) w)
    (hclosed : w.db = none) (io : RecoverIo) (hio : io.Whole host w.file) :
    ∃ db, DB.recover host io w.file {} = (.Ok, db, encodeLog host w.committed) ∧
      db.memtable.slot host = committedTable w.committed ∧ w.synced.Sublist w.committed := by
  have hconsistent := consistent_of_restarts hw
  obtain ⟨db, hrecover, hdb⟩ := hconsistent.recover hclosed hio
  exact ⟨db, hrecover, hdb.slot, hconsistent.kept⟩

/-- A torn group, an `Open` whose `ftruncate` fails, and a crash before the tail is gone. -/
theorem recover_after_restarts_failed_truncate :
    ∃ w : World, Reachable (restarts .sample) w ∧ w.file.length = 34 ∧
      ∃ db, DB.recover .sample { readv := .done 34 } w.file {} =
          (.Ok, db, encodeLog .sample w.committed) ∧
        db.memtable.slot .sample = committedTable w.committed ∧ w.synced.Sublist w.committed := by
  have hopen : Reachable (restarts .sample) { db := some {} } :=
    .step (.initial rfl) (.session (.opens { readv := .done 0 } ⟨rfl, rfl, rfl, rfl⟩ rfl))
  have hgroup := hopen.step (.session (.group (.success 32) [.put .new [97] [49]] (by decide)
    (by decide +kernel)))
  have htorn := hgroup.step (.session (.crash [.put .new [98] [50]] false 5 (by decide)
    (by decide +kernel) (by simp)))
  generalize hfile : List.take _ _ ++ _ = file at htorn
  have hdecode : decodeLog .sample file = .ok ⟨[⟨1, .put .new [97] [49]⟩], 32⟩ := by
    rw [← hfile]
    decide +kernel
  have hlen : file.length = 37 := by
    rw [← hfile]
    decide +kernel
  have hread : readAt .sample (.done 37) = .ok file.length := by
    rw [hlen]
    decide +kernel
  let io : RecoverIo := { readv := .done 37, ftruncate := some 5 }
  have hrecover := @DB.recover_decoded .sample io file _ rfl hread hdecode
  have hfails : DB.openDb .sample { recover := io } file =
      (.error (.ioError (errnoMessage .sample "truncate WAL" 5)), file) := by
    rw [if_pos (by simp [hlen])] at hrecover
    simp [DB.openDb, hrecover, io]
  have hfailed := htorn.step (.openFails _ _
    (fun _ h => Except.ok.inj (h.symm.trans hread)) hfails)
  have hcrashed := hfailed.step (.crash _ 34 hdecode (by decide))
  have hleft : (file.take 34).length = 34 := by simp [hlen]
  refine ⟨_, hcrashed, hleft, recover_after_restarts .sample _ hcrashed rfl _ ⟨rfl, ?_, rfl, rfl⟩⟩
  rw [hleft]
  decide +kernel

end StorageEngine
