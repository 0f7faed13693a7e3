import StorageEngine.Wal.RoundTrip
import StorageEngine.Lib.Splice

/-! How the decoder classifies damage.  It takes the rest of a log for a torn tail, and ignores it,
when a record header does not fit, when the record runs past the end, or when the record ends
exactly at the end and its checksum is wrong (`TornTail`).  Damage in the middle of a log that
leaves the length fields alone is reported as corruption; a damaged length field is believed. -/

namespace StorageEngine.Wal

open LittleEndian (bytes)

/-! ### Torn tails -/

/-- The rest of a log that the decoder ignores. -/
def TornTail (host : Host) (rest : Bytes) : Prop :=
  rest.length < 9 ∨ rest.length < 9 + storedLength rest ∨
    (storedType rest = kBatchRecord ∧ rest.length = 9 + storedLength rest ∧
      crc32C host (storedPayload rest) ≠ storedCrc rest)

instance (host : Host) (rest : Bytes) : Decidable (TornTail host rest) := by
  unfold TornTail; infer_instance

theorem parse_eq_stop_iff (host : Host) (rest : Bytes) :
    (recordParser host).parse rest = .stop ↔ TornTail host rest := by
  rw [parse_eq, TornTail]
  by_cases h9 : rest.length < 9
  · simp [h9]
  by_cases hlen : rest.length < 9 + storedLength rest
  · simp [hlen]
  by_cases htype : storedType rest = kBatchRecord
  case neg => simp [h9, hlen, htype]
  by_cases hcrc : crc32C host (storedPayload rest) = storedCrc rest
  · cases hbatch : decodeBatch (storedPayload rest) <;> simp [h9, hlen, htype, hcrc]
  · by_cases hlast : rest.length ≤ 9 + storedLength rest
    · simp [htype, hcrc, show rest.length = 9 + storedLength rest by omega]
    · simp [h9, hlen, htype, hcrc, hlast, show rest.length ≠ 9 + storedLength rest by omega]

theorem decodeLog_of_tornTail {host : Host} {rest : Bytes} (h : TornTail host rest) :
    decodeLog host rest = .ok {} := by
  rw [decodeLog_eq_scan, FrameScan.scan_stop _ ((parse_eq_stop_iff host rest).mpr h)]
  rfl

theorem decodeLog_validBytes_eq_zero_iff (host : Host) (rest : Bytes) :
    (∃ result, decodeLog host rest = .ok result ∧ result.validBytes = 0) ↔ TornTail host rest := by
  constructor
  · rintro ⟨result, hresult, hvalid⟩
    have hscan := scan_of_decodeLog hresult
    rw [hvalid] at hscan
    rcases FrameScan.end_of_scan _ hscan with rfl | hstop
    · exact Or.inl (by simp)
    · exact (parse_eq_stop_iff host rest).mp hstop
  · intro h
    exact ⟨{}, decodeLog_of_tornTail h, rfl⟩

theorem decodeLog_encodeLog_tornTail {host : Host} {groups : List Group}
    (hfits : ∀ group ∈ groups, group.Fits) {rest : Bytes} (h : TornTail host rest) :
    decodeLog host (encodeLog host groups ++ rest) =
      .ok { batches := groups.map Group.decoded
            validBytes := (encodeLog host groups).length } := by
  rw [decodeLog_encodeLog_append host hfits, decodeLog_of_tornTail h]
  simp [Except.map]

/-- A record that was not written to its end is a torn tail. -/
theorem tornTail_take_encode (host : Host) {group : Group} (hfits : group.Fits) {cut : Nat}
    (hcut : cut < (group.encode host).length) : TornTail host ((group.encode host).take cut) := by
  have hlen : ((group.encode host).take cut).length = cut := by
    rw [List.length_take, Nat.min_eq_left (Nat.le_of_lt hcut)]
  rw [TornTail, hlen]
  by_cases h9 : cut < 9
  · exact Or.inl h9
  · right; left
    have hstored : storedLength ((group.encode host).take cut) = group.payload.length := by
      have := storedLength_frame host [] hfits
      rw [List.append_nil, ← Group.encode_eq] at this
      rw [← this, storedLength, storedLength, List.drop_take, List.take_take,
        Nat.min_eq_left (by omega)]
    rw [hstored]
    rw [Group.length_encode] at hcut
    exact hcut

/-! ### Records with holes -/

/-- A record some of whose bytes were never written and are read back as zero. -/
def withHoles (hole : Nat → Bool) (record : Bytes) : Bytes :=
  record.mapIdx fun i byte => if hole i then 0#8 else byte

@[simp] theorem length_withHoles (hole : Nat → Bool) (record : Bytes) :
    (withHoles hole record).length = record.length := List.length_mapIdx

theorem getD_withHoles (hole : Nat → Bool) (record : Bytes) (i : Nat) :
    (withHoles hole record).getD i 0#8 = if hole i then 0#8 else record.getD i 0#8 := by
  simp only [withHoles, List.getD_eq_getElem?_getD, List.getElem?_mapIdx]
  cases record[i]? <;> simp

theorem getD_lengthField (rest : Bytes) (i : Nat) :
    ((rest.drop 4).take 4).getD i 0#8 = if i < 4 then rest.getD (4 + i) 0#8 else 0#8 := by
  simp only [List.getD_eq_getElem?_getD, List.getElem?_take, List.getElem?_drop]
  split <;> rfl

theorem storedLength_withHoles_le (hole : Nat → Bool) (record : Bytes) :
    storedLength (withHoles hole record) ≤ storedLength record := by
  apply LittleEndian.word_toNat_le
  intro i
  rw [getD_lengthField, getD_lengthField, getD_withHoles]
  by_cases hi : i < 4 <;> by_cases hhole : hole (4 + i) = true <;> simp [hi, hhole]

theorem storedLength_withHoles_eq_iff (hole : Nat → Bool) {record : Bytes}
    (hlen : 8 ≤ record.length) : storedLength (withHoles hole record) = storedLength record ↔
      ∀ i, 4 ≤ i → i < 8 → hole i = true → record.getD i 0#8 = 0#8 := by
  constructor
  · intro h i h4 h8 hhole
    have hfield := LittleEndian.word_injective (by simp) (by simp; omega) (BitVec.eq_of_toNat_eq h)
    have hbyte := congrArg (fun bs => bs.getD (i - 4) 0#8) hfield
    simp only [getD_lengthField, getD_withHoles, show i - 4 < 4 by omega,
      show 4 + (i - 4) = i by omega, hhole, if_true] at hbyte
    exact hbyte.symm
  · intro h
    rw [storedLength, storedLength]
    congr 2
    apply List.ext_getElem (by simp)
    intro i hi _
    have hi4 : i < 4 := by simp at hi; omega
    have hbyte := getD_lengthField (withHoles hole record) i
    rw [List.getD_eq_getElem _ _ hi, if_pos hi4, getD_withHoles] at hbyte
    have hbyte' := getD_lengthField record i
    rw [List.getD_eq_getElem _ _ (by simp; omega), if_pos hi4] at hbyte'
    rw [hbyte, hbyte']
    split
    · next hhole => exact (h (4 + i) (by omega) (by omega) hhole).symm
    · rfl

/-- A last record with holes that the checksum sees is a torn tail exactly when the holes spare
the length and the type. -/
theorem tornTail_withHoles_iff {host : Host} {group : Group} (hfits : group.Fits)
    {hole : Nat → Bool} (hcrc : crc32C host ((withHoles hole (group.encode host)).drop 9) ≠
      storedCrc (withHoles hole (group.encode host))) :
    TornTail host (withHoles hole (group.encode host)) ↔
      ∀ i, 4 ≤ i → i ≤ 8 → hole i = true → (group.encode host).getD i 0#8 = 0#8 := by
  have hlength := storedLength_frame host [] hfits
  have htype := storedType_frame host [] group.payload
  rw [List.append_nil, ← Group.encode_eq] at hlength htype
  have hlen := Group.length_encode host group
  generalize group.encode host = record at *
  have hle := storedLength_withHoles_le hole record
  have heq := storedLength_withHoles_eq_iff hole (show 8 ≤ record.length by omega)
  have htype' : storedType (withHoles hole record) = if hole 8 then 0#8 else kBatchRecord := by
    rw [storedType, getD_withHoles, ← htype]
    rfl
  have hlen' : (withHoles hole record).length = 9 + group.payload.length := by simp [hlen]
  constructor
  · rintro (h | h | ⟨hkind, h, -⟩)
    · omega
    · omega
    intro i h4 h8 hhole
    rcases Nat.lt_or_ge i 8 with hi | hi
    · exact heq.mp (by omega) i h4 hi hhole
    · obtain rfl : i = 8 := by omega
      rw [htype', if_pos hhole] at hkind
      contradiction
  · intro h
    have hsame := heq.mpr fun i h4 h8 => h i h4 (by omega)
    have hhole : hole 8 ≠ true := by
      intro hhole
      have := h 8 (by omega) (by omega) hhole
      rw [← storedType, htype] at this
      contradiction
    refine Or.inr (Or.inr ⟨by rw [htype', if_neg hhole], by omega, ?_⟩)
    rw [storedPayload, hsame, hlength, List.take_of_length_le (by simp; omega)]
    exact hcrc

/-! ### A damaged length field -/

/-- The log of `before`, `group`, and `after` with the four length bytes of `group`'s record
replaced. -/
def damageLength (host : Host) (before : List Group) (group : Group) (after : List Group)
    (lengthBytes : Bytes) : Bytes :=
  splice (encodeLog host (before ++ group :: after)) ((encodeLog host before).length + 4)
    lengthBytes

theorem damageLength_eq (host : Host) (before : List Group) (group : Group) (after : List Group)
    {lengthBytes : Bytes} (hbytes : lengthBytes.length = 4) :
    damageLength host before group after lengthBytes =
      encodeLog host before ++ (bytes 4 (crc32C host group.payload) ++ lengthBytes ++
        [kBatchRecord] ++ (group.payload ++ encodeLog host after)) := by
  have hlog : encodeLog host (before ++ group :: after) =
      (encodeLog host before ++ bytes 4 (crc32C host group.payload)) ++
        bytes 4 (BitVec.ofNat 32 group.payload.length) ++
        ([kBatchRecord] ++ (group.payload ++ encodeLog host after)) := by
    rw [encodeLog_append, encodeLog_cons, Group.encode_eq, frame]
    simp
  rw [damageLength, hlog, splice_middle _ (by simp) (by simp [hbytes])]
  simp

/-- Damage to the length field of a record is not taken for a torn tail exactly when the new length
ends the record before the end of the log, or at the end with a checksum that matches.  Otherwise
the decoder drops the record and every record after it without an error. -/
theorem damageLength_detected_iff (host : Host) (before : List Group) (group : Group)
    (after : List Group) (hfits : ∀ g ∈ before, g.Fits) {lengthBytes : Bytes}
    (hbytes : lengthBytes.length = 4) :
    (∀ result, decodeLog host (damageLength host before group after lengthBytes) = .ok result →
        result.validBytes ≠ (encodeLog host before).length) ↔
      (LittleEndian.word 32 lengthBytes).toNat <
          group.payload.length + (encodeLog host after).length ∨
        ((LittleEndian.word 32 lengthBytes).toNat =
            group.payload.length + (encodeLog host after).length ∧
          crc32C host (group.payload ++ encodeLog host after) = crc32C host group.payload) := by
  rw [damageLength_eq host before group after hbytes, decodeLog_encodeLog_append host hfits]
  generalize hrest : bytes 4 (crc32C host group.payload) ++ lengthBytes ++ [kBatchRecord] ++
    (group.payload ++ encodeLog host after) = rest
  have htorn := decodeLog_validBytes_eq_zero_iff host rest
  have hstart : (∀ result, (decodeLog host rest).map (fun result =>
      ({ batches := before.map Group.decoded ++ result.batches
         validBytes := (encodeLog host before).length + result.validBytes } : DecodeResult)) =
        .ok result → result.validBytes ≠ (encodeLog host before).length) ↔
      ¬TornTail host rest := by
    rw [← htorn]
    cases decodeLog host rest with
    | error status => simp [Except.map]
    | ok result => simp [Except.map]
  have hlen : rest.length = 9 + (group.payload.length + (encodeLog host after).length) := by
    rw [← hrest, length_header (by simp) hbytes, List.length_append]
  have hstored : storedLength rest = (LittleEndian.word 32 lengthBytes).toNat := by
    rw [← hrest, storedLength_header (by simp) hbytes]
  have htype : storedType rest = kBatchRecord := by
    rw [← hrest, storedType_header (by simp) hbytes]
  have hcrc : storedCrc rest = crc32C host group.payload := by
    rw [← hrest, storedCrc_header (by simp), LittleEndian.word_bytes _ (by decide)]
  have hpayload : storedPayload rest = (group.payload ++ encodeLog host after).take
      (LittleEndian.word 32 lengthBytes).toNat := by
    rw [← hrest, storedPayload_header (by simp) hbytes]
  rw [hstart, TornTail, hlen, hstored, htype, hcrc, hpayload]
  generalize (LittleEndian.word 32 lengthBytes).toNat = n
  rcases Nat.lt_trichotomy n (group.payload.length + (encodeLog host after).length) with h | h | h
  · simp [h, show ¬group.payload.length + (encodeLog host after).length < n by omega,
      show group.payload.length + (encodeLog host after).length ≠ n by omega]
  · rw [List.take_of_length_le (by simp; omega)]
    simp [h]
  · simp [h, show ¬n < group.payload.length + (encodeLog host after).length by omega,
      show n ≠ group.payload.length + (encodeLog host after).length by omega]

/-- A length of 255 in the second of three records: the decoder returns the first one. -/
theorem damageLength_dropped :
    decodeLog .sample (damageLength .sample [.put 1 [97] [49]] (.put 2 [98] [50])
        [.put 3 [99] [51]] [255, 0, 0, 0]) =
      .ok { batches := [(Group.put 1 [97] [49]).decoded]
            validBytes := (encodeLog .sample [.put 1 [97] [49]]).length } := by
  decide +kernel

theorem damageLength_detected_shorter :
    (Group.put 1 [97] [49]).Fits ∧
      ∀ result, decodeLog .sample (damageLength .sample [.put 1 [97] [49]] (.put 2 [98] [50])
          [.put 3 [99] [51]] [22, 0, 0, 0]) = .ok result →
        result.validBytes ≠ (encodeLog .sample [.put 1 [97] [49]]).length :=
  ⟨by decide, (damageLength_detected_iff _ _ _ _ (by decide) (by decide)).mpr (by decide +kernel)⟩

/-! ### Damage outside the length field -/

theorem encodeLog_split (host : Host) (before : List Group) (group : Group) (after : List Group) :
    encodeLog host (before ++ group :: after) =
      encodeLog host before ++ (frame host group.payload ++ encodeLog host after) := by
  rw [encodeLog_append, encodeLog_cons, Group.encode_eq]

theorem length_encodeLog_pos (host : Host) {groups : List Group} (h : groups ≠ []) :
    0 < (encodeLog host groups).length := by
  obtain ⟨group, rest, rfl⟩ := List.exists_cons_of_ne_nil h
  rw [encodeLog_cons, List.length_append, Group.length_encode]
  omega

/-- Damage behind `front` only. -/
theorem exists_split {front back damaged : Bytes} (hlen : damaged.length = (front ++ back).length)
    (hagree : ∀ j < front.length, damaged[j]? = (front ++ back)[j]?) :
    ∃ rest, damaged = front ++ rest ∧ rest.length = back.length := by
  have hfront : damaged.take front.length = front := by
    rw [take_eq_of_agree hagree, List.take_left]
  refine ⟨damaged.drop front.length, ?_, by simp [hlen]⟩
  conv_lhs => rw [← List.take_append_drop front.length damaged, hfront]

theorem decodeLog_of_fail {host : Host} {rest : Bytes} {status : Status} (hne : rest ≠ [])
    (h : (recordParser host).parse rest = .fail status) : decodeLog host rest = .error status := by
  rw [decodeLog_eq_scan, FrameScan.scan_fail _ hne h]
  rfl

theorem decodeLog_unknown_type {host : Host} {rest : Bytes}
    (hlen : 9 + storedLength rest ≤ rest.length) (htype : storedType rest ≠ kBatchRecord) :
    decodeLog host rest = .error (.corruption "unknown WAL record type") := by
  refine decodeLog_of_fail (by rintro rfl; simp at hlen) ?_
  rw [parse_eq, if_neg (by omega), if_neg (by omega), if_pos htype]

theorem decodeLog_corrupt {host : Host} {rest : Bytes} (hlen : 9 + storedLength rest < rest.length)
    (h : storedType rest = kBatchRecord → crc32C host (storedPayload rest) ≠ storedCrc rest) :
    ∃ message, decodeLog host rest = .error (.corruption message) := by
  by_cases htype : storedType rest = kBatchRecord
  · refine ⟨"WAL checksum mismatch", decodeLog_of_fail (by rintro rfl; simp at hlen) ?_⟩
    rw [parse_eq, if_neg (by omega), if_neg (by omega), if_neg (not_not.mpr htype),
      if_pos (h htype), if_neg (by omega)]
  · exact ⟨_, decodeLog_unknown_type (Nat.le_of_lt hlen) htype⟩

section DamagedFrame

variable (host : Host) (payload rest damaged : Bytes) (window : Nat)

/-- A record that differs from an encoded one only in four neighbouring bytes, none of them in the
length field. -/
structure DamagedFrame : Prop where
  length : damaged.length = (frame host payload ++ rest).length
  diff : ∀ j, damaged[j]? ≠ (frame host payload ++ rest)[j]? →
    (window ≤ j ∧ j < window + 4) ∧ j < 9 + payload.length ∧ ¬(4 ≤ j ∧ j < 8)

variable {host payload rest damaged window}

theorem DamagedFrame.agree (h : DamagedFrame host payload rest damaged window) {j : Nat}
    (hj : ¬((window ≤ j ∧ j < window + 4) ∧ j < 9 + payload.length ∧ ¬(4 ≤ j ∧ j < 8))) :
    damaged[j]? = (frame host payload ++ rest)[j]? :=
  not_not.mp fun hne => hj (h.diff j hne)

theorem DamagedFrame.storedLength_eq (h : DamagedFrame host payload rest damaged window)
    (hpayload : payload.length < 2 ^ 32) : storedLength damaged = payload.length := by
  rw [← storedLength_frame host rest hpayload, storedLength, storedLength,
    take_drop_eq_of_agree fun j _ _ => h.agree (by omega)]

theorem DamagedFrame.storedPayload_getElem? (h : DamagedFrame host payload rest damaged window)
    (hpayload : payload.length < 2 ^ 32) {j : Nat} (hj : j < payload.length) :
    (storedPayload damaged)[j]? = damaged[9 + j]? ∧
      payload[j]? = (frame host payload ++ rest)[9 + j]? := by
  have hp := storedPayload_frame host rest hpayload
  constructor
  · rw [storedPayload, h.storedLength_eq hpayload, List.getElem?_take, if_pos hj,
      List.getElem?_drop]
  · conv_lhs => rw [← hp]
    rw [storedPayload, storedLength_frame host rest hpayload, List.getElem?_take, if_pos hj,
      List.getElem?_drop]

/-- Damage in the checksum field leaves the payload alone. -/
theorem DamagedFrame.crc_ne_of_field (h : DamagedFrame host payload rest damaged window)
    (hpayload : payload.length < 2 ^ 32) {i : Nat} (hi4 : i < 4)
    (hi : damaged[i]? ≠ (frame host payload ++ rest)[i]?) :
    crc32C host (storedPayload damaged) ≠ storedCrc damaged := by
  intro hcrc
  have hwindow := (h.diff i hi).1
  have hsame : storedPayload damaged = payload := by
    rw [← storedPayload_frame host rest hpayload, storedPayload, storedPayload,
      h.storedLength_eq hpayload, storedLength_frame host rest hpayload,
      take_drop_eq_of_agree fun j _ _ => h.agree (by omega)]
  rw [hsame, ← storedCrc_frame host rest payload] at hcrc
  have hfront := LittleEndian.word_injective (by simp [h.length]) (by simp; omega) hcrc
  apply hi
  have := congrArg (fun l => l[i]?) hfront
  simpa [List.getElem?_take, hi4] using this.symm

theorem DamagedFrame.storedType_ne (h : DamagedFrame host payload rest damaged window)
    (hi : damaged[8]? ≠ (frame host payload ++ rest)[8]?) :
    storedType damaged ≠ kBatchRecord := by
  intro htype
  have hlen := h.length
  have htype' : storedType (frame host payload ++ rest) = kBatchRecord :=
    storedType_frame host rest payload
  have hbound : 8 < (frame host payload ++ rest).length := by
    rw [List.length_append, length_frame, kRecordHeaderSize]; omega
  simp only [storedType, List.getD_eq_getElem?_getD] at htype htype'
  rw [List.getElem?_eq_getElem (by omega), Option.getD_some] at htype htype'
  apply hi
  rw [List.getElem?_eq_getElem (by omega), List.getElem?_eq_getElem (by omega), htype, htype']

/-- Damage in the payload leaves the checksum field alone, and the checksum sees it. -/
theorem DamagedFrame.crc_ne_of_payload (h : DamagedFrame host payload rest damaged window)
    (hpayload : payload.length < 2 ^ 32) {i : Nat} (hi9 : 9 ≤ i)
    (hi : damaged[i]? ≠ (frame host payload ++ rest)[i]?) :
    crc32C host (storedPayload damaged) ≠ storedCrc damaged := by
  intro hcrc
  obtain ⟨hwindow, hinside, -⟩ := h.diff i hi
  have hfield : storedCrc damaged = crc32C host payload := by
    rw [← storedCrc_frame host rest payload, storedCrc, storedCrc,
      take_eq_of_agree fun j _ => h.agree (by omega)]
  have hlen : (storedPayload damaged).length = payload.length := by
    rw [storedPayload, h.storedLength_eq hpayload, List.length_take, List.length_drop, h.length,
      List.length_append, length_frame, kRecordHeaderSize]
    omega
  have hsame : storedPayload damaged = payload := by
    refine eq_of_crc32C_eq (window - 9) hlen (fun j hj => ?_) (hcrc.trans hfield)
    by_cases hj' : j < payload.length
    · obtain ⟨h1, h2⟩ := h.storedPayload_getElem? hpayload hj'
      rw [h1, h2] at hj
      obtain ⟨hw, -, -⟩ := h.diff _ hj
      omega
    · rw [List.getElem?_eq_none (by omega), List.getElem?_eq_none (by omega)] at hj
      exact absurd rfl hj
  obtain ⟨h1, h2⟩ := h.storedPayload_getElem? hpayload (show i - 9 < payload.length by omega)
  rw [hsame, h2, show 9 + (i - 9) = i by omega] at h1
  exact hi h1.symm

theorem DamagedFrame.crc_ne (h : DamagedFrame host payload rest damaged window)
    (hpayload : payload.length < 2 ^ 32) (hne : damaged ≠ frame host payload ++ rest)
    (htype : storedType damaged = kBatchRecord) :
    crc32C host (storedPayload damaged) ≠ storedCrc damaged := by
  obtain ⟨i, hi⟩ : ∃ i, damaged[i]? ≠ (frame host payload ++ rest)[i]? := by
    by_contra hall
    exact hne (List.ext_getElem? fun i => not_not.mp fun h => hall ⟨i, h⟩)
  obtain ⟨-, -, hfield⟩ := h.diff i hi
  rcases Nat.lt_or_ge i 4 with hi4 | hi4
  · exact h.crc_ne_of_field hpayload hi4 hi
  rcases Nat.lt_or_ge i 9 with hi9 | hi9
  · obtain rfl : i = 8 := by omega
    exact absurd htype (h.storedType_ne hi)
  · exact h.crc_ne_of_payload hpayload hi9 hi

end DamagedFrame

/-- Damage in the middle of a log is reported: when one record that is not the last differs in at
most four neighbouring bytes, none of them in its length field, the decoder returns corruption. -/
theorem decodeLog_damaged (host : Host) (before : List Group) (group : Group) (after : List Group)
    (hfits : ∀ g ∈ before ++ group :: after, g.Fits) (hafter : after ≠ []) (damaged : Bytes)
    (window : Nat) (hlen : damaged.length = (encodeLog host (before ++ group :: after)).length)
    (hne : damaged ≠ encodeLog host (before ++ group :: after))
    (hdiff : ∀ j, damaged[j]? ≠ (encodeLog host (before ++ group :: after))[j]? →
      (window ≤ j ∧ j < window + 4) ∧
      ((encodeLog host before).length ≤ j ∧
        j < (encodeLog host before).length + (group.encode host).length) ∧
      ¬((encodeLog host before).length + 4 ≤ j ∧ j < (encodeLog host before).length + 8)) :
    ∃ message, decodeLog host damaged = .error (.corruption message) := by
  have hrecord : (group.encode host).length = 9 + group.payload.length :=
    Group.length_encode host group
  have hpayload : group.payload.length < 2 ^ 32 := hfits group (by simp)
  have htail := length_encodeLog_pos host hafter
  rw [encodeLog_split] at hlen hne hdiff
  obtain ⟨rest, rfl, hrest⟩ := exists_split hlen fun j hj => not_not.mp fun hne => by
    have := (hdiff j hne).2.1
    omega
  have hdamaged : DamagedFrame host group.payload (encodeLog host after) rest
      (window - (encodeLog host before).length) := by
    refine ⟨hrest, fun j hj => ?_⟩
    have := hdiff ((encodeLog host before).length + j) (by
      rwa [List.getElem?_append_right (by omega), List.getElem?_append_right (by omega),
        Nat.add_sub_cancel_left])
    omega
  have hinside : 9 + storedLength rest < rest.length := by
    rw [hdamaged.storedLength_eq hpayload, hrest, List.length_append, length_frame,
      kRecordHeaderSize]
    omega
  have hrestNe : rest ≠ frame host group.payload ++ encodeLog host after :=
    fun h => hne (congrArg _ h)
  obtain ⟨message, hmessage⟩ := decodeLog_corrupt hinside (hdamaged.crc_ne hpayload hrestNe)
  refine ⟨message, ?_⟩
  rw [decodeLog_encodeLog_append host fun g hg => hfits g (by simp [hg]), hmessage]
  rfl

theorem decodeLog_damaged_value :
    ∃ message, decodeLog .sample
      ((encodeLog .sample [.put 1 [97] [49], .put 2 [98] [50]]).set 31 48) =
        .error (.corruption message) := by
  refine decodeLog_damaged .sample [] (.put 1 [97] [49]) [.put 2 [98] [50]] (by decide) (by decide)
    _ 31 (by simp) ?_ ?_
  · decide +kernel
  · intro j hj
    have : 31 = j := by
      by_contra hne
      exact hj (List.getElem?_set_ne hne)
    subst this
    decide +kernel

end StorageEngine.Wal
