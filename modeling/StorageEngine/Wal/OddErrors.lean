import StorageEngine.Lib.CrcParity
import StorageEngine.Wal.Damage

/-! Odd errors.  The polynomial of the checksum has an odd number of bits set, so a checksum and the
payload it belongs to have an even number of bits set together.  Damage that flips an odd number of
bits never looks like a record, wherever in the record the bits are. -/

namespace StorageEngine.Wal

open ReflectedCrc (parity bits distance)

/-- The number of bits in which two byte strings of equal length differ. -/
def flippedBits (xs ys : Bytes) : Nat := distance (bitString xs) (bitString ys)

theorem odd_flippedBits_iff {xs ys : Bytes} (h : xs.length = ys.length) :
    flippedBits xs ys % 2 = 1 ↔ parity (bitString xs) ≠ parity (bitString ys) :=
  ReflectedCrc.odd_distance_iff (by simp [h])

theorem parity_crc32C (host : Host) (bytes : Bytes) :
    parity (bits (crc32C host bytes)) = parity (bitString bytes) := by
  have hones : parity (bits 0xffffffff#32) = false := by decide +kernel
  have hpoly : parity (bits 0x82f63b78#32) = true := by decide +kernel
  have hnot : ∀ c : BitVec 32, ~~~c = c ^^^ 0xffffffff#32 := fun c => BitVec.xor_allOnes.symm
  rw [crc32C_eq_feed, hnot, ReflectedCrc.parity_bits_xor,
    ReflectedCrc.parity_feed (by decide) hpoly, hones]
  simp

theorem parity_storedCrc {rest : Bytes} (h : 4 ≤ rest.length) :
    parity (bits (storedCrc rest)) = parity (bitString (rest.take 4)) := by
  rw [storedCrc, bits_word _ _ (by simp; omega)]

/-- When the checksum is right, it and the payload cancel in the parity of the whole. -/
theorem parity_of_crc {host : Host} {rest : Bytes} (hlen : 9 + storedLength rest ≤ rest.length)
    (hcrc : crc32C host (storedPayload rest) = storedCrc rest) :
    parity (bitString rest) = (parity (bitString ((rest.drop 4).take 5)) ^^
      parity (bitString (rest.drop (9 + storedLength rest)))) := by
  have hsplit : rest = rest.take 4 ++ ((rest.drop 4).take 5 ++
      (storedPayload rest ++ rest.drop (9 + storedLength rest))) := by
    rw [storedPayload, ← List.drop_drop, List.take_append_drop, show 9 = 4 + 5 by rfl,
      ← List.drop_drop, List.take_append_drop, List.take_append_drop]
  have hparity := congrArg (fun crc => parity (bits crc)) hcrc
  simp only [parity_crc32C, parity_storedCrc (show 4 ≤ rest.length by omega)] at hparity
  conv_lhs => rw [hsplit]
  simp only [bitString_append, ReflectedCrc.parity_append, hparity]
  cases parity (bitString (rest.take 4)) <;> simp

theorem getElem?_eight {rest : Bytes} {type : Byte} (h : storedType rest = type)
    (hlen : 9 ≤ rest.length) : rest[8]? = some type := by
  rw [storedType, List.getD_eq_getElem?_getD, List.getElem?_eq_getElem (by omega),
    Option.getD_some] at h
  rw [List.getElem?_eq_getElem (by omega), h]

/-! ### A record with damage beside its length -/

section Frame

variable {host : Host} {payload rest damaged : Bytes}

theorem storedLength_of_agree (hpayload : payload.length < 2 ^ 32)
    (hagree : ∀ j, (4 ≤ j ∧ j < 8) ∨ 9 + payload.length ≤ j →
      damaged[j]? = (frame host payload ++ rest)[j]?) : storedLength damaged = payload.length := by
  rw [← storedLength_frame host rest hpayload, storedLength, storedLength,
    take_drop_eq_of_agree fun j hj hj' => hagree j (.inl (by omega))]

theorem crc_ne_of_odd (hpayload : payload.length < 2 ^ 32)
    (hlen : damaged.length = (frame host payload ++ rest).length)
    (hagree : ∀ j, (4 ≤ j ∧ j < 8) ∨ 9 + payload.length ≤ j →
      damaged[j]? = (frame host payload ++ rest)[j]?)
    (hodd : parity (bitString damaged) ≠ parity (bitString (frame host payload ++ rest)))
    (htype : storedType damaged = kBatchRecord) :
    crc32C host (storedPayload damaged) ≠ storedCrc damaged := by
  intro hcrc
  have hstored := storedLength_frame host rest hpayload
  have hstored' := storedLength_of_agree hpayload hagree
  have hbound : 9 + payload.length ≤ (frame host payload ++ rest).length := by
    rw [List.length_append, length_frame, kRecordHeaderSize]
    omega
  have hright : crc32C host (storedPayload (frame host payload ++ rest)) =
      storedCrc (frame host payload ++ rest) := by
    rw [storedPayload_frame host rest hpayload, storedCrc_frame]
  have hheader : ∀ j, 4 ≤ j → j < 4 + 5 → damaged[j]? = (frame host payload ++ rest)[j]? := by
    intro j hj hj'
    by_cases h8 : j = 8
    · subst h8
      rw [getElem?_eight htype (by omega),
        getElem?_eight (storedType_frame host rest payload) (by omega)]
    · exact hagree j (.inl (by omega))
  have hframe := parity_of_crc (hstored.symm ▸ hbound) hright
  have hdamaged := parity_of_crc (hstored'.symm ▸ hlen ▸ hbound) hcrc
  apply hodd
  rw [hframe, hdamaged, hstored, hstored', take_drop_eq_of_agree hheader]
  congr 3
  apply List.ext_getElem?
  intro i
  rw [List.getElem?_drop, List.getElem?_drop, hagree _ (.inr (by omega))]

end Frame

/-- A record with an odd number of flipped bits, none of them in its length field, is never taken
for a record.  In the middle of a log the decoder reports corruption; at the end of a log it ignores
the record when the type is intact, and reports corruption when it is not. -/
theorem decodeLog_odd_errors (host : Host) (before : List Group) (group : Group)
    (after : List Group) (hfits : ∀ g ∈ before ++ group :: after, g.Fits) (damaged : Bytes)
    (hlen : damaged.length = (encodeLog host (before ++ group :: after)).length)
    (hodd : flippedBits damaged (encodeLog host (before ++ group :: after)) % 2 = 1)
    (hdiff : ∀ j, damaged[j]? ≠ (encodeLog host (before ++ group :: after))[j]? →
      ((encodeLog host before).length ≤ j ∧
        j < (encodeLog host before).length + (group.encode host).length) ∧
      ¬((encodeLog host before).length + 4 ≤ j ∧ j < (encodeLog host before).length + 8)) :
    (after ≠ [] → ∃ message, decodeLog host damaged = .error (.corruption message)) ∧
      (after = [] → damaged[(encodeLog host before).length + 8]? = some kBatchRecord →
        decodeLog host damaged =
          .ok { batches := before.map Group.decoded
                validBytes := (encodeLog host before).length }) ∧
      (after = [] → damaged[(encodeLog host before).length + 8]? ≠ some kBatchRecord →
        decodeLog host damaged = .error (.corruption "unknown WAL record type")) := by
  have hrecord : (group.encode host).length = 9 + group.payload.length :=
    Group.length_encode host group
  have hpayload : group.payload.length < 2 ^ 32 := hfits group (by simp)
  have hbefore : ∀ g ∈ before, g.Fits := fun g hg => hfits g (by simp [hg])
  have hparity := (odd_flippedBits_iff hlen).mp hodd
  rw [encodeLog_split] at hlen hparity hdiff
  obtain ⟨rest, rfl, hrest⟩ := exists_split hlen fun j hj => not_not.mp fun hne => by
    have := (hdiff j hne).1
    omega
  have hagree : ∀ j, (4 ≤ j ∧ j < 8) ∨ 9 + group.payload.length ≤ j →
      rest[j]? = (frame host group.payload ++ encodeLog host after)[j]? := by
    intro j hj
    by_contra hne
    have := hdiff ((encodeLog host before).length + j) (by
      rwa [List.getElem?_append_right (by omega), List.getElem?_append_right (by omega),
        Nat.add_sub_cancel_left])
    omega
  have hstored := storedLength_of_agree hpayload hagree
  have hsize : rest.length = 9 + group.payload.length + (encodeLog host after).length := by
    rw [hrest, List.length_append, length_frame, kRecordHeaderSize]
  rw [bitString_append, bitString_append, ReflectedCrc.parity_append,
    ReflectedCrc.parity_append] at hparity
  have hcrc := crc_ne_of_odd hpayload hrest hagree fun heq => hparity (by rw [heq])
  have htypeAt : (encodeLog host before ++ rest)[(encodeLog host before).length + 8]? =
      some (storedType rest) := by
    rw [List.getElem?_append_right (by omega), Nat.add_sub_cancel_left,
      getElem?_eight rfl (by omega)]
  simp only [htypeAt, ne_eq, Option.some_inj]
  refine ⟨fun hafter => ?_, fun hafter htype => ?_, fun hafter htype => ?_⟩
  · have hmore := length_encodeLog_pos host hafter
    obtain ⟨message, hmessage⟩ := decodeLog_corrupt (by omega) hcrc
    exact ⟨message, by rw [decodeLog_encodeLog_append host hbefore, hmessage]; rfl⟩
  · subst hafter
    exact decodeLog_encodeLog_tornTail hbefore
      (.inr (.inr ⟨htype, by simpa [hstored] using hsize, hcrc htype⟩))
  · rw [decodeLog_encodeLog_append host hbefore, decodeLog_unknown_type (by omega) htype]
    rfl

/-- One bit of the checksum, one of the sequence number and one of the value. -/
theorem decodeLog_odd_errors_spread :
    let log := encodeLog .sample [.put 1 [97] [49], .put 2 [98] [50]]
    let damaged := ((log.set 0 (log.getD 0 0 ^^^ 1)).set 9 (log.getD 9 0 ^^^ 128)).set 31 (49 ^^^ 2)
    flippedBits damaged log = 3 ∧
      ∃ message, decodeLog .sample damaged = .error (.corruption message) := by
  intro log damaged
  have hflips : flippedBits damaged log = 3 := by decide +kernel
  refine ⟨hflips, (decodeLog_odd_errors .sample [] (.put 1 [97] [49]) [.put 2 [98] [50]]
    (by decide) damaged (by simp [damaged, log]) (congrArg (· % 2) hflips)
    fun j hj => ?_).1 (by simp)⟩
  have hplace : j = 0 ∨ j = 9 ∨ j = 31 := by
    by_contra hne
    simp only [not_or] at hne
    apply hj
    simp only [damaged]
    rw [List.getElem?_set_ne (Ne.symm hne.2.2), List.getElem?_set_ne (Ne.symm hne.2.1),
      List.getElem?_set_ne (Ne.symm hne.1)]
    rfl
  rcases hplace with rfl | rfl | rfl <;> decide +kernel

end StorageEngine.Wal
