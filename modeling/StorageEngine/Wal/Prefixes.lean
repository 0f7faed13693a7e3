import StorageEngine.Wal.Damage
import StorageEngine.Wal.Grammar

/-! Logs whose end is cut off.  Whatever the bytes of an accepted log are, the decoder accepts every
front of it, and returns the batches whose records are complete there. -/

namespace StorageEngine.Wal

open FrameScan (scan Cuttable)

theorem storedLength_take {rest : Bytes} {cut : Nat} (h : 8 ≤ cut) :
    storedLength (rest.take cut) = storedLength rest := by
  rw [storedLength, storedLength, List.drop_take, List.take_take, Nat.min_eq_left (by omega)]

/-- A rest that ends inside its header or inside its payload is torn. -/
theorem tornTail_take_of_lt (host : Host) {rest : Bytes} {cut : Nat}
    (hcut : cut < 9 + storedLength rest) : TornTail host (rest.take cut) := by
  have hle : (rest.take cut).length ≤ cut := List.length_take_le _ _
  by_cases hheader : cut < 9
  · exact .inl (by omega)
  · refine .inr (.inl ?_)
    rw [storedLength_take (by omega)]
    omega

theorem TornTail.take {host : Host} {rest : Bytes} (h : TornTail host rest) (cut : Nat) :
    TornTail host (rest.take cut) := by
  by_cases hall : rest.length ≤ cut
  · rwa [List.take_of_length_le hall]
  · rcases h with hheader | hpayload | ⟨-, hend, -⟩
    · exact .inl (by rw [List.length_take]; omega)
    · exact tornTail_take_of_lt host (by omega)
    · exact tornTail_take_of_lt host (by omega)

theorem recordParser_cuttable (host : Host) : Cuttable (recordParser host) := by
  intro rest cut
  constructor
  · intro hstop
    rw [parse_eq_stop_iff] at hstop ⊢
    exact hstop.take cut
  · intro decoded n hnext hcut
    obtain ⟨hn, -⟩ := decodeRecord_next hnext
    rw [parse_eq_stop_iff]
    exact tornTail_take_of_lt host (by simpa [hn] using hcut)

theorem exists_decodeLog_take {host : Host} {log : Bytes} {result : DecodeResult}
    (h : decodeLog host log = .ok result) (cut : Nat) :
    ∃ kept, decodeLog host (log.take cut) = .ok kept := by
  obtain ⟨r, hr⟩ := FrameScan.exists_scan_take _ (recordParser_local host)
    (recordParser_cuttable host) (scan_of_decodeLog h) cut
  exact ⟨_, by rw [decodeLog_eq_scan, hr]; rfl⟩

theorem batches_prefix_of_take {host : Host} {log : Bytes} {cut cut' : Nat}
    {kept kept' : DecodeResult} (h : decodeLog host (log.take cut) = .ok kept)
    (h' : decodeLog host (log.take cut') = .ok kept') (hle : kept.validBytes ≤ cut') :
    kept.batches <+: kept'.batches :=
  FrameScan.scan_take_prefix _ (recordParser_local host) (scan_of_decodeLog h) hle
    (scan_of_decodeLog h')

end StorageEngine.Wal
