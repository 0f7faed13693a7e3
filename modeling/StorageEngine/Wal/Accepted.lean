import StorageEngine.Wal.Damage
import StorageEngine.Wal.Grammar

/-! Which logs the decoder accepts, as a condition on their bytes.  `LogHolds` describes a log from
its front: framed payloads, each with a batch header and the entries that the header announces, and
then a torn tail.  The decoder accepts these logs and no others (`decodeLog_ok_iff`). -/

namespace StorageEngine.Wal

open LittleEndian (word)

/-! ### Entries -/

theorem EntryAt.decodeEntry_eq {payload : Bytes} {offset : Nat} {entry : Entry}
    (h : EntryAt payload offset entry) (batch : WriteBatch) :
    ∃ after, decodeEntry payload offset batch =
        .ok (after, offset + storedEntrySize payload offset) ∧
      after.entries = batch.entries ++ [entry] := by
  obtain ⟨type, key, value⟩ := entry
  obtain ⟨hinside, htype, hkey, hput, hdelete⟩ := h
  simp only at htype hkey hput hdelete
  have hsize : offset + 1 + 4 + 4 + storedKeySize payload offset + storedValueSize payload offset =
      offset + storedEntrySize payload offset := by
    unfold storedEntrySize
    omega
  have hheader : offset + 1 + 4 + 4 ≤ payload.length := by omega
  -- The turn of the loop with its two length fields read.
  have hturn : decodeEntry payload offset batch =
      if storedEntryType payload offset = EntryType.kPut.toByte then
        .ok (batch.put ((payload.drop (offset + 9)).take (storedKeySize payload offset))
          ((payload.drop (offset + 9 + storedKeySize payload offset)).take
            (storedValueSize payload offset)), offset + storedEntrySize payload offset)
      else if storedEntryType payload offset = EntryType.kDelete.toByte then
        .ok (batch.delete ((payload.drop (offset + 9)).take (storedKeySize payload offset)),
          offset + storedEntrySize payload offset)
      else
        .error (.corruption "unknown WAL entry type") := by
    simp only [decodeEntry, readFixed32LE, readFixedLE_eq, Nat.reduceDiv]
    rw [if_neg (by omega), if_pos (by omega)]
    simp only
    rw [if_pos hheader]
    simp only
    rw [if_neg (by rw [← hsize] at hinside; exact Nat.not_lt.mpr hinside), ← hsize]
    rfl
  rw [hturn, ← htype]
  cases type with
  | kPut => exact ⟨_, if_pos rfl, by rw [hput rfl, hkey]; rfl⟩
  | kDelete => exact ⟨_, by rw [if_neg (by decide), if_pos rfl], by rw [hdelete rfl, hkey]; rfl⟩

/-- The entries stand one after the other from `offset` on. -/
inductive EntriesAt (payload : Bytes) : Nat → List Entry → Prop
  | nil (offset : Nat) : EntriesAt payload offset []
  | cons {offset : Nat} {entry : Entry} {entries : List Entry}
      (first : EntryAt payload offset entry)
      (rest : EntriesAt payload (offset + storedEntrySize payload offset) entries) :
      EntriesAt payload offset (entry :: entries)

theorem EntriesAt.decodeEntries_eq {payload : Bytes} {offset : Nat} {entries : List Entry}
    (h : EntriesAt payload offset entries) (batch : WriteBatch) :
    ∃ result, decodeEntries payload entries.length offset batch = .ok result ∧
      result.entries = batch.entries ++ entries := by
  induction h generalizing batch with
  | nil offset => exact ⟨batch, rfl, (List.append_nil _).symm⟩
  | cons first rest ih =>
    obtain ⟨after, hentry, hafter⟩ := first.decodeEntry_eq batch
    obtain ⟨result, hrest, hresult⟩ := ih after
    refine ⟨result, ?_, by rw [hresult, hafter, List.append_assoc, List.singleton_append]⟩
    rw [List.length_cons, decodeEntries, hentry]
    exact hrest

theorem entriesAt_of_decodeEntries {payload : Bytes} {left offset : Nat}
    {batch result : WriteBatch} (h : decodeEntries payload left offset batch = .ok result) :
    ∃ entries, result.entries = batch.entries ++ entries ∧ entries.length = left ∧
      EntriesAt payload offset entries := by
  induction left generalizing offset batch with
  | zero =>
    obtain rfl := Except.ok.inj h
    exact ⟨[], by simp, rfl, .nil offset⟩
  | succ left ih =>
    rw [decodeEntries] at h
    split at h
    · contradiction
    next after next hentry =>
    obtain ⟨rfl, entry, hafter, hat⟩ := decodeEntry_ok hentry
    obtain ⟨entries, hresult, hlength, hentries⟩ := ih h
    refine ⟨entry :: entries, ?_, by rw [List.length_cons, hlength], .cons hat hentries⟩
    rw [hresult, hafter, List.append_assoc, List.singleton_append]

/-! ### Payloads and logs -/

/-- A payload with a header of twelve bytes and, behind it, as many entries as the header says.
Bytes behind the last entry do not matter. -/
structure PayloadHolds (payload : Bytes) (decoded : DecodedBatch) : Prop where
  header : 12 ≤ payload.length
  base : decoded.baseSequence = word 64 (payload.take 8)
  count : decoded.batch.entries.length = storedCount payload
  entries : EntriesAt payload 12 decoded.batch.entries

theorem decodeBatch_ok_iff (payload : Bytes) (decoded : DecodedBatch) :
    decodeBatch payload = .ok decoded ↔ PayloadHolds payload decoded := by
  simp only [decodeBatch, readFixed64LE, readFixed32LE, readFixedLE_eq, Nat.reduceDiv]
  constructor
  · intro h
    split at h
    · contradiction
    next hbase =>
    obtain ⟨-, rfl, rfl⟩ : _ ∧ _ ∧ _ := by simpa [Option.ite_none_right_eq_some] using hbase
    split at h
    · contradiction
    next hcount =>
    obtain ⟨hlen, rfl, rfl⟩ : _ ∧ _ ∧ _ := by simpa [Option.ite_none_right_eq_some] using hcount
    split at h
    · contradiction
    next batch hentries =>
    obtain rfl := Except.ok.inj h
    obtain ⟨entries, hbatch, hlength, hat⟩ := entriesAt_of_decodeEntries hentries
    rw [WriteBatch.entries_new, List.nil_append] at hbatch
    subst hbatch
    exact ⟨hlen, rfl, hlength, hat⟩
  · rintro ⟨hheader, hbase, hcount, hentries⟩
    obtain ⟨result, hresult, heq⟩ := hentries.decodeEntries_eq .new
    obtain rfl : result = decoded.batch := WriteBatch.ext (by simpa using heq)
    rw [hcount] at hresult
    rw [if_pos (by omega)]
    simp only [List.drop_zero, Nat.zero_add]
    rw [if_pos hheader]
    simp only [Nat.reduceAdd]
    rw [← storedCount, hresult, ← hbase]

/-- Framed payloads, each with a batch in it, and then a torn tail. -/
def LogHolds (host : Host) (log : Bytes) (batches : List DecodedBatch) : Prop :=
  ∃ payloads tail, log = payloads.flatMap (frame host) ++ tail ∧
    (∀ payload ∈ payloads, payload.length < 2 ^ 32) ∧
    List.Forall₂ PayloadHolds payloads batches ∧ TornTail host tail

theorem tornTail_drop_validBytes {host : Host} {log : Bytes} {result : DecodeResult}
    (h : decodeLog host log = .ok result) : TornTail host (log.drop result.validBytes) := by
  have hagain := decodeLog_take_append h (log.drop result.validBytes)
  rw [List.take_append_drop, h] at hagain
  cases hrest : decodeLog host (log.drop result.validBytes) with
  | error status => rw [hrest] at hagain; contradiction
  | ok rest =>
    rw [hrest] at hagain
    have hvalid := congrArg DecodeResult.validBytes (Except.ok.inj hagain)
    exact (decodeLog_validBytes_eq_zero_iff host _).mp ⟨rest, hrest, by simpa using hvalid⟩

/-- The decoder accepts a log exactly when it consists of complete records with the checksums of
their payloads and with entries that fit in them, and of a torn tail. -/
theorem decodeLog_ok_iff (host : Host) (log : Bytes) (batches : List DecodedBatch) :
    (∃ validBytes, decodeLog host log = .ok ⟨batches, validBytes⟩) ↔
      LogHolds host log batches := by
  constructor
  · rintro ⟨validBytes, h⟩
    obtain ⟨payloads, hlog, hfits, hbatches⟩ := accepted_frames h
    refine ⟨payloads, log.drop validBytes, ?_, hfits, ?_, tornTail_drop_validBytes h⟩
    · rw [← hlog, List.take_append_drop]
    · exact hbatches.imp fun payload decoded => (decodeBatch_ok_iff payload decoded).mp
  · rintro ⟨payloads, tail, rfl, hfits, hbatches, htail⟩
    have hframes : List.Forall₂ (FrameScan.IsFrame (recordParser host))
        (payloads.map (frame host)) batches := by
      rw [List.forall₂_map_left_iff]
      refine ((List.forall₂_and_left _ _).mpr ⟨hfits, hbatches⟩).imp ?_
      rintro payload decoded ⟨hlen, hholds⟩
      exact isFrame_frame host hlen ((decodeBatch_ok_iff payload decoded).mpr hholds)
    rw [decodeLog_eq_scan, List.flatMap_def, FrameScan.scan_flatten _ hframes,
      FrameScan.scan_stop _ ((parse_eq_stop_iff host tail).mpr htail)]
    exact ⟨_, by simp [Except.map]; rfl⟩

end StorageEngine.Wal
