import Mathlib.Data.List.Nodup
import Mathlib.Data.List.Perm.Basic
import Mathlib.Logic.Function.Iterate
import StorageEngine.Io.Completion

/-! Every completion is delivered once, to the operation it was posted for, and every coroutine is
resumed once, when all of its results are there.  The invariant says where each operation is, from
its submission to its delivery. -/

namespace StorageEngine.Io

open CountedRing (Ring)
open Transition

namespace Coroutine

theorem owner_eq {c : Coroutine} {p : BitVec 64 × Operation} (hp : p ∈ c.operations) :
    p.2.tag.owner = c.id := by
  obtain ⟨id, awaiter⟩ := c
  cases awaiter with
  | single => simp_all [operations]
  | linked => rcases (by simpa [operations] using hp) with rfl | rfl <;> rfl

theorem carrier_mem (c : Coroutine) :
    (c.carrier.1, { tag := c.carrier.2, continuation := some c.id }) ∈ c.operations := by
  obtain ⟨id, awaiter⟩ := c
  cases awaiter <;> simp [operations, carrier]

/-- An operation has the continuation, or it is the write before a sync that has it. -/
theorem operations_cases {c : Coroutine} {p : BitVec 64 × Operation} (hp : p ∈ c.operations) :
    (p.1 = c.carrier.1 ∧ p.2.continuation = some c.id) ∨
      (p.2.continuation = none ∧ p.2.tag = ⟨c.id, .write⟩ ∧ c.carrier.2 = ⟨c.id, .sync⟩) := by
  obtain ⟨id, awaiter⟩ := c
  cases awaiter with
  | single => simp_all [operations, carrier]
  | linked => rcases (by simpa [operations] using hp) with rfl | rfl <;> simp [carrier]

theorem operations_order (c : Coroutine) :
    c.operations.Pairwise fun _ q => q.2.tag.part ≠ .write := by
  obtain ⟨id, awaiter⟩ := c
  cases awaiter <;> simp [operations]

theorem nodup_tags (c : Coroutine) : c.tags.Nodup := by
  obtain ⟨id, awaiter⟩ := c
  cases awaiter <;> simp [tags, operations]

theorem mem_addresses {c : Coroutine} {a : BitVec 64} :
    a ∈ c.addresses ↔ ∃ p ∈ c.operations, p.1 = a := List.mem_map

end Coroutine

theorem store_of_notMem (memory : Memory) {operations : List (BitVec 64 × Operation)}
    {a : BitVec 64} (h : a ∉ operations.map Prod.fst) : store memory operations a = memory a := by
  induction operations generalizing memory with
  | nil => rfl
  | cons p operations ih =>
    rw [List.map_cons, List.mem_cons, not_or] at h
    exact (ih _ h.2).trans (Function.update_of_ne h.1 _ _)

theorem store_of_mem (memory : Memory) {operations : List (BitVec 64 × Operation)}
    (h : (operations.map Prod.fst).Nodup) {p : BitVec 64 × Operation} (hp : p ∈ operations) :
    store memory operations p.1 = p.2 := by
  induction operations generalizing memory with
  | nil => contradiction
  | cons q operations ih =>
    rw [List.map_cons, List.nodup_cons] at h
    rcases List.mem_cons.mp hp with rfl | hp
    · exact (store_of_notMem _ h.1).trans (Function.update_self _ _ _)
    · exact ih _ h.2 hp

namespace Completions

theorem post_spec {ring : Ring 32 Cqe} (h : ring.WellFormed)
    (hroom : ring.count < ring.entries.toNat) (cqe : Cqe) :
    (post ring cqe).WellFormed ∧ (post ring cqe).contents = ring.contents ++ [cqe] := by
  have hold : ∀ i < ring.count,
      (post ring cqe).slots (ring.slotAt i) = ring.slots (ring.slotAt i) := fun i hi =>
    Function.update_of_ne (CountedRing.slotAt_ne_tail h hroom hi) _ _
  obtain ⟨hring, -, hcontents⟩ :=
    CountedRing.contents_of_push (q := post ring cqe) h hroom rfl rfl rfl rfl hold
  have hslot : (post ring cqe).slots (ring.tail &&& ring.mask) = cqe := Function.update_self _ _ _
  rw [hslot] at hcontents
  exact ⟨hring, hcontents⟩

theorem take_spec {ring : Ring 32 Cqe} (h : ring.WellFormed) (hne : ring.head ≠ ring.tail) :
    { ring with head := ring.head + 1#32 }.WellFormed ∧
      ring.contents = ring.slots (ring.head &&& ring.mask) ::
        { ring with head := ring.head + 1#32 }.contents :=
  CountedRing.contents_of_take h hne rfl rfl rfl rfl rfl

/-- The completions that are posted and not delivered, the next one first. -/
def undelivered (s : Completions) : List Cqe :=
  (match s.phase with
    | .taken cqe => [cqe]
    | _ => []) ++ s.ring.contents

/-- The operations that wait for a delivery. -/
def inflight (s : Completions) : List (BitVec 64) :=
  s.undelivered.map Cqe.userData ++ s.outstanding

end Completions

/-- What `await_resume` returned is made of results that were delivered to the operations of the
coroutine. -/
def Coroutine.Returned (host : Host) (c : Coroutine) (delivered : List (Tag × Int32))
    (outcome : Option Outcome) : Prop :=
  ∃ memory : Memory, (∀ p ∈ c.operations, (p.2.tag, (memory p.1).result) ∈ delivered) ∧
    outcome = some (c.awaiter.awaitResume host memory)

namespace Completions

/-- The suspended coroutines and their frames.  No address is in two frames, and a frame keeps the
tags and continuations that it was suspended with. -/
structure Frames (s : Completions) : Prop where
  ids : (s.submitted.map Coroutine.id).Nodup
  account : (s.suspended.map Coroutine.id ++ s.resumed.map Prod.fst).Perm
    (s.submitted.map Coroutine.id)
  member : ∀ c ∈ s.suspended, c ∈ s.submitted
  live : s.live.Nodup
  null : 0#64 ∉ s.live
  frames : ∀ c ∈ s.suspended, ∀ p ∈ c.operations,
    s.tag p.1 = p.2.tag ∧ (s.memory p.1).continuation = p.2.continuation

/-- The operations on their way.  Each is delivered, in the ring, or still with the kernel; a
coroutine that waits does so for one of them, and what is not on its way has its result. -/
structure Flow (host : Host) (s : Completions) : Prop where
  ring : s.ring.WellFormed
  running : s.phase ≠ .returned
  inflight : ∀ a ∈ s.inflight, a ∈ s.live
  posted : s.posted =
    s.delivered ++ s.undelivered.map fun cqe => (s.tag cqe.userData, cqe.res)
  tags : (s.posted.map Prod.fst ++ s.outstanding.map s.tag).Perm
    (s.submitted.flatMap Coroutine.tags)
  order : s.inflight.Pairwise fun a b => ¬s.Linked b a
  waits : ∀ c ∈ s.suspended, c.carrier.1 ∈ s.inflight ∨ s.phase = .recorded c.carrier.1
  stored : ∀ c ∈ s.suspended, ∀ p ∈ c.operations,
    p.1 ∈ s.inflight ∨ (p.2.tag, (s.memory p.1).result) ∈ s.delivered
  recorded : ∀ a, s.phase = .recorded a →
    a ∈ s.live ∧ a ∉ s.inflight ∧ ∀ b ∈ s.inflight, ¬s.Linked b a
  outcomes : ∀ r ∈ s.resumed, ∃ c ∈ s.submitted, c.id = r.1 ∧ c.Returned host s.delivered r.2

structure Invariant (host : Host) (s : Completions) : Prop extends Frames s, Flow host s

namespace Invariant

variable {host : Host} {s : Completions}

theorem exists_operation (h : s.Invariant host) {a : BitVec 64} (ha : a ∈ s.live) :
    ∃ c ∈ s.suspended, ∃ p ∈ c.operations, p.1 = a ∧ s.tag a = p.2.tag ∧
      (s.memory a).continuation = p.2.continuation := by
  obtain ⟨c, hc, ha⟩ := List.mem_flatMap.mp ha
  obtain ⟨p, hp, rfl⟩ := Coroutine.mem_addresses.mp ha
  exact ⟨c, hc, p, hp, rfl, h.frames c hc p hp⟩

theorem nodup_tags (h : s.Invariant host) : (s.submitted.flatMap Coroutine.tags).Nodup := by
  rw [List.nodup_flatMap]
  refine ⟨fun c _ => c.nodup_tags, ?_⟩
  have hids := List.pairwise_map.mp h.ids
  refine hids.imp fun {c d} hne tag hc hd => hne ?_
  obtain ⟨p, hp, rfl⟩ := List.mem_map.mp hc
  obtain ⟨q, hq, heq⟩ := List.mem_map.mp hd
  rw [← Coroutine.owner_eq hp, ← Coroutine.owner_eq hq, heq]

theorem posted_tags (h : s.Invariant host) : s.posted.map Prod.fst ++ s.outstanding.map s.tag =
    s.delivered.map Prod.fst ++ s.inflight.map s.tag := by
  rw [h.posted, Completions.inflight]
  simp [Function.comp_def]

theorem nodup_inflight (h : s.Invariant host) : s.inflight.Nodup := by
  have htags := h.tags.nodup_iff.mpr h.nodup_tags
  rw [h.posted_tags] at htags
  exact htags.of_append_right.of_map

theorem owner_mem (h : s.Invariant host) {a : BitVec 64} (ha : a ∈ s.live) :
    (s.tag a).owner ∈ s.submitted.map Coroutine.id := by
  obtain ⟨c, hc, p, hp, -, htag, -⟩ := h.exists_operation ha
  rw [htag, Coroutine.owner_eq hp]
  exact List.mem_map_of_mem (h.member c hc)

/-- No operation has the user data of the completion that stops the loop. -/
theorem taken_ne_null (h : s.Invariant host) {cqe : Cqe} (hphase : s.phase = .taken cqe) :
    cqe.userData ≠ 0#64 := by
  have hmem : cqe.userData ∈ s.inflight := by simp [Completions.inflight, undelivered, hphase]
  exact fun hzero => h.null (hzero ▸ h.inflight _ hmem)

/-- Steps of the loop that only move completions along, from the ring into its hands. -/
theorem of_undelivered (h : s.Invariant host) {phase : LoopPhase} {ring : Ring 32 Cqe}
    (hring : ring.WellFormed) (hrunning : phase ≠ .returned) (hphase : ∀ a, phase ≠ .recorded a)
    (hwaits : ∀ c ∈ s.suspended, s.phase ≠ .recorded c.carrier.1)
    (hundelivered : { s with phase, ring }.undelivered = s.undelivered) :
    { s with phase, ring }.Invariant host := by
  have hinflight : { s with phase, ring }.inflight = s.inflight := by
    simp only [Completions.inflight, hundelivered]
  exact
    { h.toFrames with
      ring := hring
      running := hrunning
      inflight := hinflight ▸ h.inflight
      posted := hundelivered ▸ h.posted
      tags := h.tags
      order := hinflight ▸ h.order
      waits := fun c hc => .inl (hinflight ▸ (h.waits c hc).resolve_right (hwaits c hc))
      stored := hinflight ▸ h.stored
      recorded := fun a ha => absurd ha (hphase a)
      outcomes := h.outcomes }

/-- The store of a result leaves the tag and the continuation of every operation as they are. -/
theorem record_operation (s : Completions) (cqe : Cqe) (a : BitVec 64) :
    (s.record cqe).tag a = s.tag a ∧
      ((s.record cqe).memory a).continuation = (s.memory a).continuation := by
  by_cases ha : a = cqe.userData
  · subst ha
    simp [Completions.record, tag]
  · simp [Completions.record, tag, Function.update_of_ne ha]

theorem record_linked_iff (s : Completions) (cqe : Cqe) (a b : BitVec 64) :
    (s.record cqe).Linked a b ↔ s.Linked a b := by
  rw [Linked, Linked, (record_operation s cqe a).1, (record_operation s cqe b).1]

theorem record (h : s.Invariant host) {cqe : Cqe} (hphase : s.phase = .taken cqe) :
    (s.record cqe).Invariant host := by
  have hundelivered : s.undelivered = cqe :: (s.record cqe).undelivered := by
    simp [undelivered, hphase, Completions.record]
  have hinflight : s.inflight = cqe.userData :: (s.record cqe).inflight := by
    rw [Completions.inflight, hundelivered]
    rfl
  have hmemory := record_operation s cqe
  have htag : (s.record cqe).tag = s.tag := funext fun a => (hmemory a).1
  have hnodup := h.nodup_inflight
  have horder := h.order
  have hlive := h.inflight
  rw [hinflight, List.nodup_cons] at hnodup
  rw [hinflight, List.pairwise_cons] at horder
  rw [hinflight, List.forall_mem_cons] at hlive
  refine
    { h.toFrames with
      frames := fun c hc p hp => by
        rw [(hmemory p.1).1, (hmemory p.1).2]
        exact h.frames c hc p hp
      ring := h.ring
      running := by simp [Completions.record]
      inflight := hlive.2
      posted := ?_
      tags := htag ▸ h.tags
      order := ?_
      waits := ?_
      stored := ?_
      recorded := ?_
      outcomes := ?_ }
  · have hposted := h.posted
    rw [hundelivered] at hposted
    rw [htag]
    simpa [Completions.record, tag] using hposted
  · simpa only [record_linked_iff] using horder.2
  · intro c hc
    have hwaits := (h.waits c hc).resolve_right (by simp [hphase])
    rw [hinflight, List.mem_cons] at hwaits
    exact hwaits.symm.imp_right fun heq => by simp [Completions.record, heq]
  · intro c hc p hp
    by_cases heq : p.1 = cqe.userData
    · refine .inr (List.mem_append_right _ ?_)
      rw [← (h.frames c hc p hp).1, heq]
      simp [Completions.record, tag]
    · have hresult : (s.record cqe).memory p.1 = s.memory p.1 := Function.update_of_ne heq _ _
      have hstored := h.stored c hc p hp
      rw [hinflight, List.mem_cons] at hstored
      rw [hresult]
      exact hstored.imp (fun hmem => hmem.resolve_left heq) fun hmem => List.mem_append_left _ hmem
  · intro a ha
    obtain rfl : cqe.userData = a := by simpa [Completions.record] using ha
    simp only [record_linked_iff]
    exact ⟨hlive.1, hnodup.1, horder.1⟩
  · intro r hr
    obtain ⟨c, hc, hid, memory, hdelivered, houtcome⟩ := h.outcomes r hr
    exact ⟨c, hc, hid, memory, fun p hp => List.mem_append_left _ (hdelivered p hp), houtcome⟩

section Submit

variable {c : Coroutine}

theorem mem_live {d : Coroutine} (hd : d ∈ s.suspended) {p : BitVec 64 × Operation}
    (hp : p ∈ d.operations) : p.1 ∈ s.live :=
  List.mem_flatMap.mpr ⟨d, hd, Coroutine.mem_addresses.mpr ⟨p, hp, rfl⟩⟩

theorem submit_live : (s.submit c).live = s.live ++ c.addresses := by
  simp [Completions.live, Completions.submit]

theorem submit_inflight : (s.submit c).inflight = s.inflight ++ c.addresses :=
  (List.append_assoc _ _ _).symm

theorem submit_memory (hfree : ∀ a ∈ c.addresses, a ∉ s.live) {a : BitVec 64} (ha : a ∈ s.live) :
    (s.submit c).memory a = s.memory a :=
  store_of_notMem s.memory fun hmem => hfree a hmem ha

theorem submit_memory_new (haddresses : c.addresses.Nodup) {p : BitVec 64 × Operation}
    (hp : p ∈ c.operations) : (s.submit c).memory p.1 = p.2 :=
  store_of_mem s.memory haddresses hp

theorem submit_tag (hfree : ∀ a ∈ c.addresses, a ∉ s.live) {a : BitVec 64} (ha : a ∈ s.live) :
    (s.submit c).tag a = s.tag a := by
  rw [tag, tag, submit_memory hfree ha]

theorem submit_frames (h : s.Frames) (hid : c.id ∉ s.submitted.map Coroutine.id)
    (haddresses : c.addresses.Nodup) (hnull : 0#64 ∉ c.addresses)
    (hfree : ∀ a ∈ c.addresses, a ∉ s.live) : (s.submit c).Frames where
  ids := by
    rw [Completions.submit, List.map_append, List.nodup_append]
    exact ⟨h.ids, List.nodup_singleton _, by simpa using hid⟩
  account := by
    simp only [Completions.submit, List.map_append, List.map_singleton, List.append_assoc]
    exact (List.perm_append_comm.append_left _).trans
      ((List.append_assoc _ _ _).symm ▸ h.account.append_right _)
  member := by
    intro d hd
    simp only [Completions.submit, List.mem_append] at hd ⊢
    exact hd.imp_left (h.member d)
  live := by
    rw [submit_live, List.nodup_append]
    exact ⟨h.live, haddresses, fun a ha b hb heq => hfree b hb (heq ▸ ha)⟩
  null := by
    rw [submit_live, List.mem_append, not_or]
    exact ⟨h.null, hnull⟩
  frames := by
    intro d hd p hp
    rcases List.mem_append.mp hd with hd | hd
    · rw [submit_tag hfree (mem_live hd hp), submit_memory hfree (mem_live hd hp)]
      exact h.frames d hd p hp
    · obtain rfl := List.mem_singleton.mp hd
      rw [submit_memory_new haddresses hp, tag, submit_memory_new haddresses hp]
      exact ⟨rfl, rfl⟩

theorem submit_tag_new (haddresses : c.addresses.Nodup) {p : BitVec 64 × Operation}
    (hp : p ∈ c.operations) : (s.submit c).tag p.1 = p.2.tag := by
  rw [tag, submit_memory_new haddresses hp]

theorem submit_linked_iff (hfree : ∀ a ∈ c.addresses, a ∉ s.live) {a b : BitVec 64}
    (ha : a ∈ s.live) (hb : b ∈ s.live) : (s.submit c).Linked a b ↔ s.Linked a b := by
  rw [Linked, Linked, submit_tag hfree ha, submit_tag hfree hb]

/-- An operation that was there before belongs to another coroutine. -/
theorem submit_not_linked (h : s.Invariant host) (hid : c.id ∉ s.submitted.map Coroutine.id)
    (haddresses : c.addresses.Nodup) (hfree : ∀ a ∈ c.addresses, a ∉ s.live) {a b : BitVec 64}
    (ha : a ∈ s.live) (hb : b ∈ c.addresses) : ¬(s.submit c).Linked b a := by
  intro hlink
  obtain ⟨p, hp, rfl⟩ := Coroutine.mem_addresses.mp hb
  have howner := congrArg Tag.owner hlink.1
  rw [submit_tag_new haddresses hp, Coroutine.owner_eq hp, submit_tag hfree ha] at howner
  exact hid (howner ▸ h.owner_mem ha)

theorem submit_tags (h : s.Invariant host) (haddresses : c.addresses.Nodup)
    (hfree : ∀ a ∈ c.addresses, a ∉ s.live) :
    (s.posted.map Prod.fst ++ (s.outstanding ++ c.addresses).map (s.submit c).tag).Perm
      ((s.submitted ++ [c]).flatMap Coroutine.tags) := by
  have hold : s.outstanding.map (s.submit c).tag = s.outstanding.map s.tag :=
    List.map_congr_left fun a ha => submit_tag hfree (h.inflight a (List.mem_append_right _ ha))
  have hnew : c.addresses.map (s.submit c).tag = c.tags := by
    rw [Coroutine.addresses, List.map_map]
    exact List.map_congr_left fun p hp => submit_tag_new haddresses hp
  rw [List.map_append, hold, hnew, ← List.append_assoc, List.flatMap_append,
    List.flatMap_singleton]
  exact h.tags.append_right c.tags

theorem submit_order (h : s.Invariant host) (hid : c.id ∉ s.submitted.map Coroutine.id)
    (haddresses : c.addresses.Nodup) (hfree : ∀ a ∈ c.addresses, a ∉ s.live) :
    (s.inflight ++ c.addresses).Pairwise fun a b => ¬(s.submit c).Linked b a := by
  rw [List.pairwise_append]
  refine ⟨h.order.imp_of_mem fun {a b} ha hb => ?_, ?_, ?_⟩
  · rw [submit_linked_iff hfree (h.inflight b hb) (h.inflight a ha)]
    exact id
  · rw [Coroutine.addresses, List.pairwise_map]
    refine c.operations_order.imp_of_mem fun {p q} _ hq hpart hlink => hpart ?_
    rw [← submit_tag_new (s := s) haddresses hq, hlink.1]
  · intro a ha b hb
    exact submit_not_linked h hid haddresses hfree (h.inflight a ha) hb

theorem submit (h : s.Invariant host) (hid : c.id ∉ s.submitted.map Coroutine.id)
    (haddresses : c.addresses.Nodup) (hnull : 0#64 ∉ c.addresses)
    (hfree : ∀ a ∈ c.addresses, a ∉ s.live) : (s.submit c).Invariant host := by
  have hframes := submit_frames h.toFrames hid haddresses hnull hfree
  have hcqe : ∀ cqe ∈ s.undelivered, cqe.userData ∈ s.live := fun cqe hcqe =>
    h.inflight _ (List.mem_append_left _ (List.mem_map_of_mem hcqe))
  refine
    { hframes with
      ring := h.ring
      running := h.running
      inflight := ?_
      posted := ?_
      tags := submit_tags h haddresses hfree
      order := submit_inflight ▸ submit_order h hid haddresses hfree
      waits := ?_
      stored := ?_
      recorded := ?_
      outcomes := ?_ }
  · rw [submit_inflight, submit_live]
    intro a ha
    exact List.mem_append.mpr ((List.mem_append.mp ha).imp_left (h.inflight a))
  · refine h.posted.trans (congrArg _ (List.map_congr_left fun cqe hmem => ?_))
    rw [submit_tag hfree (hcqe cqe hmem)]
  · intro d hd
    rw [submit_inflight, List.mem_append]
    rcases List.mem_append.mp hd with hd | hd
    · exact (h.waits d hd).imp_left .inl
    · obtain rfl := List.mem_singleton.mp hd
      exact .inl (.inr (List.mem_map_of_mem d.carrier_mem))
  · intro d hd p hp
    rw [submit_inflight, List.mem_append]
    rcases List.mem_append.mp hd with hd | hd
    · rw [submit_memory hfree (mem_live hd hp)]
      exact (h.stored d hd p hp).imp_left .inl
    · obtain rfl := List.mem_singleton.mp hd
      exact .inl (.inr (List.mem_map_of_mem hp))
  · intro a ha
    obtain ⟨hlive, hnot, hlinks⟩ := h.recorded a ha
    rw [submit_inflight, submit_live]
    refine ⟨List.mem_append_left _ hlive, ?_, fun b hb => ?_⟩
    · rw [List.mem_append, not_or]
      exact ⟨hnot, fun hmem => hfree a hmem hlive⟩
    · rcases List.mem_append.mp hb with hb | hb
      · rw [submit_linked_iff hfree (h.inflight b hb) hlive]
        exact hlinks b hb
      · exact submit_not_linked h hid haddresses hfree hlive hb
  · intro r hr
    obtain ⟨d, hd, hreturned⟩ := h.outcomes r hr
    exact ⟨d, List.mem_append_left _ hd, hreturned⟩

end Submit

/-- The kernel may complete any operation but a sync whose write it still has. -/
theorem complete (h : s.Invariant host) {address : BitVec 64} (hout : address ∈ s.outstanding)
    (horder : ∀ a ∈ s.outstanding, ¬s.Linked a address)
    (hroom : s.ring.count < s.ring.entries.toNat) (res : Int32) :
    (s.complete address res).Invariant host := by
  obtain ⟨hring, hcontents⟩ := post_spec h.ring hroom ⟨address, res⟩
  have hundelivered : (s.complete address res).undelivered = s.undelivered ++ [⟨address, res⟩] := by
    simp only [undelivered, Completions.complete, hcontents, List.append_assoc]
  have hinflight : (s.complete address res).inflight =
      s.undelivered.map Cqe.userData ++ address :: s.outstanding.erase address := by
    rw [Completions.inflight, hundelivered]
    simp [Completions.complete]
  have hperm : (s.complete address res).inflight.Perm s.inflight := by
    rw [hinflight]
    exact (List.perm_cons_erase hout).symm.append_left _
  refine
    { h.toFrames with
      ring := hring
      running := h.running
      inflight := fun a ha => h.inflight a (hperm.mem_iff.mp ha)
      posted := ?_
      tags := ?_
      order := ?_
      waits := fun c hc => (h.waits c hc).imp_left hperm.mem_iff.mpr
      stored := fun c hc p hp => (h.stored c hc p hp).imp_left hperm.mem_iff.mpr
      recorded := ?_
      outcomes := h.outcomes }
  · rw [hundelivered, List.map_append, ← List.append_assoc]
    exact congrArg (· ++ _) h.posted
  · have htags : (s.outstanding.map s.tag).Perm
        (s.tag address :: (s.outstanding.erase address).map s.tag) :=
      (List.perm_cons_erase hout).map s.tag
    have hmove := (htags.symm.append_left (s.posted.map Prod.fst)).trans h.tags
    have htag : (s.complete address res).tag = s.tag := rfl
    rw [htag]
    simpa [Completions.complete] using hmove
  · obtain ⟨hundelivered, houtstanding, hacross⟩ := List.pairwise_append.mp h.order
    rw [hinflight, List.pairwise_append, List.pairwise_cons]
    refine ⟨hundelivered, ⟨fun b hb => horder b (List.mem_of_mem_erase hb),
      houtstanding.sublist List.erase_sublist⟩, fun a ha b hb => hacross a ha b ?_⟩
    rcases List.mem_cons.mp hb with rfl | hb
    · exact hout
    · exact List.mem_of_mem_erase hb
  · intro a ha
    obtain ⟨hlive, hnot, hlinks⟩ := h.recorded a ha
    exact ⟨hlive, fun hmem => hnot (hperm.mem_iff.mp hmem),
      fun b hb => hlinks b (hperm.mem_iff.mp hb)⟩

/-- The coroutine whose last operation the loop has just recorded is found and resumed, and none
of its operations is on its way any more. -/
theorem exists_resumed (h : s.Invariant host) {address : BitVec 64} {id : Nat}
    (hphase : s.phase = .recorded address) (hcont : (s.memory address).continuation = some id) :
    ∃ (c : Coroutine) (before after : List Coroutine), s.suspended = before ++ c :: after ∧
      c.id = id ∧ c.carrier.1 = address ∧ s.suspended.find? (·.id == id) = some c ∧
      s.suspended.eraseP (·.id == id) = before ++ after ∧ ∀ a ∈ c.addresses, a ∉ s.inflight := by
  obtain ⟨hlive, hnot, hlinks⟩ := h.recorded address hphase
  obtain ⟨c, hc, p, hp, rfl, htag, hcont'⟩ := h.exists_operation hlive
  rw [hcont] at hcont'
  rcases Coroutine.operations_cases hp with ⟨hcarrier, hid⟩ | ⟨hnone, -, -⟩
  swap
  · rw [hnone] at hcont'
    contradiction
  obtain rfl : c.id = id := by simpa [hid] using hcont'.symm
  obtain ⟨before, after, hsuspended⟩ := List.append_of_mem hc
  have hother : ∀ d ∈ before, ¬(d.id == c.id) = true := by
    have hids := (h.account.nodup_iff.mpr h.ids).of_append_left
    rw [hsuspended, List.map_append, List.nodup_append] at hids
    intro d hd heq
    exact hids.2.2 d.id (List.mem_map_of_mem hd) c.id (by simp) (by simpa using heq)
  refine ⟨c, before, after, hsuspended, rfl, hcarrier.symm, ?_, ?_, ?_⟩
  · rw [hsuspended, List.find?_append, List.find?_eq_none.mpr hother]
    simp
  · rw [hsuspended, List.eraseP_append_right _ (by simpa using hother),
      List.eraseP_cons_of_pos (by simp)]
  · intro a ha hmem
    obtain ⟨q, hq, rfl⟩ := Coroutine.mem_addresses.mp ha
    rcases Coroutine.operations_cases hq with ⟨heq, -⟩ | ⟨-, hwrite, hsync⟩
    · exact hnot (hcarrier.trans heq.symm ▸ hmem)
    · -- The write of the pair cannot be behind its sync.
      have htag' := (h.frames c hc _ c.carrier_mem).1
      refine hlinks q.1 hmem ⟨?_, ?_⟩
      · rw [(h.frames c hc q hq).1, hwrite, hcarrier, htag', hsync]
      · rw [hcarrier, htag', hsync]

theorem resume (h : s.Invariant host) {address : BitVec 64} {id : Nat}
    (hphase : s.phase = .recorded address) (hcont : (s.memory address).continuation = some id) :
    (s.resume host id).Invariant host := by
  obtain ⟨c, before, after, hsuspended, rfl, hcarrier, hfind, herase, hidle⟩ :=
    h.exists_resumed hphase hcont
  have hperm : s.suspended.Perm (c :: (before ++ after)) := by
    rw [hsuspended]
    exact List.perm_middle
  have hlive : s.live.Perm (c.addresses ++ (s.resume host c.id).live) := by
    simp only [Completions.live, Completions.resume, herase]
    exact hperm.flatMap_right _
  have hmem : ∀ d ∈ (s.resume host c.id).suspended, d ∈ s.suspended := fun d hd =>
    (List.eraseP_sublist).subset hd
  have hundelivered : (s.resume host c.id).undelivered = s.undelivered := by
    simp [undelivered, Completions.resume, hphase]
  have hinflight : (s.resume host c.id).inflight = s.inflight := by
    rw [Completions.inflight, hundelivered]
    rfl
  have hnodup := hlive.nodup_iff.mp h.live
  refine
    { ids := h.ids
      account := ?_
      member := fun d hd => h.member d (hmem d hd)
      live := hnodup.of_append_right
      null := fun hnull => h.null (hlive.mem_iff.mpr (List.mem_append_right _ hnull))
      frames := fun d hd => h.frames d (hmem d hd)
      ring := h.ring
      running := by simp [Completions.resume]
      inflight := ?_
      posted := hundelivered ▸ h.posted
      tags := h.tags
      order := hinflight ▸ h.order
      waits := ?_
      stored := fun d hd => hinflight ▸ h.stored d (hmem d hd)
      recorded := by simp [Completions.resume]
      outcomes := ?_ }
  · have hids := (hperm.map Coroutine.id).symm.append_right (s.resumed.map Prod.fst)
    refine List.Perm.trans ?_ (hids.trans h.account)
    simp only [Completions.resume, herase, List.map_append, List.map_cons,
      ← List.append_assoc]
    exact List.perm_append_singleton _ _
  · intro a ha
    rw [hinflight] at ha
    exact (List.mem_append.mp (hlive.mem_iff.mp (h.inflight a ha))).resolve_left
      fun hmem => hidle a hmem ha
  · intro d hd
    rw [hinflight]
    refine (h.waits d (hmem d hd)).imp_right fun heq => ?_
    obtain rfl : address = d.carrier.1 := by simpa [hphase] using heq
    -- Two frames would share the address.
    refine absurd rfl (List.nodup_append.mp hnodup |>.2.2 _ ?_ _ (mem_live hd d.carrier_mem))
    exact hcarrier ▸ List.mem_map_of_mem c.carrier_mem
  · intro r hr
    rcases List.mem_append.mp hr with hr | hr
    · exact h.outcomes r hr
    · obtain rfl := List.mem_singleton.mp hr
      have hc : c ∈ s.suspended := by simp [hsuspended]
      refine ⟨c, h.member c hc, rfl, s.memory, fun p hp => ?_, by rw [hfind]; rfl⟩
      exact (h.stored c hc p hp).resolve_left (hidle p.1 (List.mem_map_of_mem hp))

theorem loop (h : s.Invariant host) (hrun : s.stopping = false) (enter : Option Int) :
    (s.loop host enter).Invariant host := by
  unfold Completions.loop
  cases hphase : s.phase with
  | entering =>
    have hdrain : { s with phase := .draining }.Invariant host :=
      h.of_undelivered h.ring (by simp) (by simp) (by simp [hphase]) (by simp [undelivered, hphase])
    cases enter with
    | none => exact hdrain
    | some errno => simpa [hrun] using h
  | draining =>
    simp only
    split
    · exact h.of_undelivered h.ring (by simp) (by simp) (by simp [hphase])
        (by simp [undelivered, hphase])
    · next hne =>
      obtain ⟨hring, hcontents⟩ := take_spec h.ring hne
      refine h.of_undelivered hring (by simp) (by simp) (by simp [hphase]) ?_
      simp [undelivered, hphase, hcontents]
  | taken cqe =>
    simp only [if_neg (h.taken_ne_null hphase)]
    exact h.record hphase
  | recorded address =>
    simp only
    cases hcont : (s.memory address).continuation with
    | none =>
      simp only
      have hdrained : { s with phase := .draining }.undelivered = s.undelivered := by
        simp [undelivered, hphase]
      refine h.of_undelivered h.ring (by simp) (by simp) (fun c hc heq => ?_) hdrained
      -- The operation that a coroutine waits for has its continuation.
      obtain rfl : address = c.carrier.1 := by simpa [hphase] using heq
      have := (h.frames c hc _ c.carrier_mem).2
      simp [hcont] at this
    | some id => simpa [hcont] using h.resume hphase hcont
  | returned => exact h

end Invariant

theorem loop_frame (host : Host) (enter : Option Int) (s : Completions) :
    (s.loop host enter).stopping = s.stopping ∧ (s.loop host enter).posted = s.posted ∧
      (s.loop host enter).submitted = s.submitted ∧
      (s.loop host enter).outstanding = s.outstanding := by
  unfold loop
  repeat' split
  all_goals exact ⟨rfl, rfl, rfl, rfl⟩

/-- A request to stop is never taken back. -/
theorem Step.stopping {host : Host} {s t : Completions} (h : Step host s t)
    (hrun : t.stopping = false) : s.stopping = false := by
  cases h with
  | loop enter => rwa [(loop_frame host enter s).1] at hrun
  | submit => exact hrun
  | complete => exact hrun
  | stop => contradiction
  | postNop => exact hrun

theorem invariant_step {host : Host} {s t : Completions} (h : s.Invariant host)
    (hst : Step host s t) (hrun : t.stopping = false) : t.Invariant host := by
  have hrun' := hst.stopping hrun
  cases hst with
  | loop enter => exact h.loop hrun' enter
  | submit c hid haddresses hnull hfree => exact h.submit hid haddresses hnull hfree
  | complete address res hout horder hroom => exact h.complete hout horder hroom res
  | stop => contradiction
  | postNop res hstop hroom => simp [hrun'] at hstop

theorem invariant_of_reachable {host : Host} {s : Completions}
    (h : Reachable (completionLoop host) s) : s.stopping = false → s.Invariant host := by
  refine h.invariant ?_ fun s t _ hs hst hrun => invariant_step (hs (hst.stopping hrun)) hst hrun
  rintro _ ⟨ring, memory, hring, hempty, rfl⟩ -
  have hcontents := ring.contents_eq_nil_iff.mpr hempty
  constructor
  · constructor <;> simp [live]
  · constructor <;> simp [hring, inflight, undelivered, hcontents]

/-! ### The loop left to itself -/

/-- Steps of the loop alone, whose calls of `io_uring_enter` succeed. -/
def looped (host : Host) (n : Nat) (s : Completions) : Completions := (loop host none)^[n] s

theorem Invariant.iterate {host : Host} {s : Completions} (h : s.Invariant host)
    (hrun : s.stopping = false) (n : Nat) :
    (s.looped host n).Invariant host ∧ (s.looped host n).stopping = false ∧
      (s.looped host n).posted = s.posted ∧
      (s.looped host n).submitted = s.submitted ∧
      (s.looped host n).outstanding = s.outstanding := by
  induction n with
  | zero => exact ⟨h, hrun, rfl, rfl, rfl⟩
  | succ n ih =>
    obtain ⟨hinv, hstop, hposted, hsubmitted, hout⟩ := ih
    obtain ⟨hstop', hposted', hsubmitted', hout'⟩ := loop_frame host none (s.looped host n)
    rw [looped, Function.iterate_succ_apply']
    exact ⟨hinv.loop hstop none, hstop'.trans hstop, hposted'.trans hposted,
      hsubmitted'.trans hsubmitted, hout'.trans hout⟩

theorem loop_recorded {host : Host} {s : Completions} {address : BitVec 64}
    (hphase : s.phase = .recorded address) :
    (s.loop host none).phase = .draining ∧ (s.loop host none).ring = s.ring := by
  simp only [loop, hphase]
  split <;> exact ⟨rfl, rfl⟩

theorem Invariant.loop_taken {host : Host} {s : Completions} (h : s.Invariant host) {cqe : Cqe}
    (hphase : s.phase = .taken cqe) :
    (s.looped host 2).phase = .draining ∧ (s.looped host 2).ring = s.ring := by
  have hrecord : s.loop host none = s.record cqe := by
    simp only [Completions.loop, hphase, if_neg (h.taken_ne_null hphase)]
  have hloop : s.looped host 2 = (s.record cqe).loop host none := congrArg _ hrecord
  rw [hloop]
  exact loop_recorded rfl

theorem Invariant.exists_draining {host : Host} {s : Completions} (h : s.Invariant host) :
    ∃ n, (s.looped host n).phase = .draining := by
  cases hphase : s.phase with
  | entering => exact ⟨1, by simp [looped, Completions.loop, hphase]⟩
  | draining => exact ⟨0, hphase⟩
  | taken cqe => exact ⟨2, (h.loop_taken hphase).1⟩
  | recorded address => exact ⟨1, (loop_recorded hphase).1⟩
  | returned => exact absurd hphase h.running

/-- While the kernel posts nothing more, the inner loop empties the ring. -/
theorem Invariant.exists_drained {host : Host} {s : Completions} (h : s.Invariant host)
    (hrun : s.stopping = false) (hphase : s.phase = .draining) :
    ∃ n, (s.looped host n).phase = .draining ∧
      (s.looped host n).ring.contents = [] := by
  induction hlen : s.ring.contents.length generalizing s with
  | zero => exact ⟨0, hphase, List.length_eq_zero_iff.mp hlen⟩
  | succ k ih =>
    have hne : s.ring.head ≠ s.ring.tail := by
      intro hempty
      rw [s.ring.contents_eq_nil_iff.mpr hempty] at hlen
      contradiction
    obtain ⟨hring, hcontents⟩ := take_spec h.ring hne
    have htake : s.loop host none = { s with
        phase := .taken (s.ring.slots (s.ring.head &&& s.ring.mask))
        ring.head := s.ring.head + 1#32 } := by
      simp only [Completions.loop, hphase, if_neg hne]
    -- Three steps deal with one completion.
    obtain ⟨hinv, hrun', -⟩ := h.iterate hrun 3
    have htaken : (s.loop host none).Invariant host := h.loop hrun none
    have hround := htaken.loop_taken (congrArg Completions.phase htake)
    have hring' : (s.looped host 3).ring = { s.ring with head := s.ring.head + 1#32 } :=
      hround.2.trans (congrArg Completions.ring htake)
    rw [hcontents, List.length_cons, ← hring'] at hlen
    obtain ⟨n, hn⟩ := ih hinv hrun' hround.1 (Nat.succ.inj hlen)
    exact ⟨n + 3, by rwa [looped, Function.iterate_add_apply]⟩

/-- When the loop has drained the ring, a coroutine that is still suspended waits for an operation
whose completion the kernel has not posted. -/
theorem Invariant.resumed_of_drained {host : Host} {s : Completions} (h : s.Invariant host)
    (hphase : s.phase = .draining) (hcontents : s.ring.contents = []) :
    s.delivered = s.posted ∧ ∀ c ∈ s.submitted, c.carrier.2 ∈ s.posted.map Prod.fst →
      c.id ∈ s.resumed.map Prod.fst := by
  have hundelivered : s.undelivered = [] := by simp [undelivered, hphase, hcontents]
  have hposted := h.posted
  rw [hundelivered, List.map_nil, List.append_nil] at hposted
  refine ⟨hposted.symm, fun c hc hcarrier => ?_⟩
  have hid := h.account.mem_iff.mpr (List.mem_map_of_mem hc)
  refine (List.mem_append.mp hid).resolve_left fun hsuspended => ?_
  obtain ⟨d, hd, hid⟩ := List.mem_map.mp hsuspended
  obtain rfl : d = c := List.inj_on_of_nodup_map h.ids (h.member d hd) hc hid
  have hwaits := (h.waits d hd).resolve_right (by simp [hphase])
  rw [Completions.inflight, hundelivered, List.map_nil, List.nil_append] at hwaits
  have htag := List.mem_map_of_mem (f := s.tag) hwaits
  rw [(h.frames d hd _ d.carrier_mem).1] at htag
  exact (List.nodup_append.mp (h.tags.nodup_iff.mpr h.nodup_tags)).2.2 _ hcarrier _ htag rfl

theorem Invariant.exists_all_resumed {host : Host} {s : Completions} (h : s.Invariant host)
    (hrun : s.stopping = false) : ∃ n, (s.looped host n).delivered = s.posted ∧
      ∀ c ∈ s.submitted, c.carrier.2 ∈ s.posted.map Prod.fst →
        c.id ∈ (s.looped host n).resumed.map Prod.fst := by
  obtain ⟨n, hdraining⟩ := h.exists_draining
  obtain ⟨hn, hrun', -⟩ := h.iterate hrun n
  obtain ⟨m, hphase, hcontents⟩ := hn.exists_drained hrun' hdraining
  have hadd : s.looped host (m + n) = (s.looped host n).looped host m :=
    Function.iterate_add_apply _ _ _ _
  rw [← hadd] at hphase hcontents
  obtain ⟨hm, -, hposted, hsubmitted, -⟩ := h.iterate hrun (m + n)
  refine ⟨m + n, ?_⟩
  rw [← hposted, ← hsubmitted]
  exact hm.resumed_of_drained hphase hcontents

theorem Invariant.outcome {host : Host} {s : Completions} (h : s.Invariant host) {c : Coroutine}
    (hc : c ∈ s.submitted) {outcome : Option Outcome} (hmem : (c.id, outcome) ∈ s.resumed) :
    c.Returned host s.delivered outcome := by
  obtain ⟨d, hd, hid, hreturned⟩ := h.outcomes _ hmem
  obtain rfl : d = c := List.inj_on_of_nodup_map h.ids hd hc hid
  exact hreturned

/-- A result that was delivered is in its operation, as long as the frame is there. -/
theorem Invariant.result_eq {host : Host} {s : Completions} (h : s.Invariant host) {c : Coroutine}
    (hc : c ∈ s.suspended) {p : BitVec 64 × Operation} (hp : p ∈ c.operations) {result : Int32}
    (hdelivered : (p.2.tag, result) ∈ s.delivered) : (s.memory p.1).result = result := by
  have htags := h.tags.nodup_iff.mpr h.nodup_tags
  rw [h.posted_tags, List.nodup_append] at htags
  obtain ⟨hnodup, -, hdisjoint⟩ := htags
  have hinflight : p.1 ∉ s.inflight := by
    intro hmem
    have htag := List.mem_map_of_mem (f := s.tag) hmem
    rw [(h.frames c hc p hp).1] at htag
    exact hdisjoint _ (List.mem_map_of_mem hdelivered) _ htag rfl
  have hstored := (h.stored c hc p hp).resolve_left hinflight
  have hsame := List.inj_on_of_nodup_map hnodup hstored hdelivered rfl
  exact (Prod.mk.inj hsame).2

end Completions

/-! ### Soundness -/

/-- Completions reach their own operations, each once and in the order in which the kernel posts
them: as long as the coroutine is suspended, its operation holds the result.  A coroutine is resumed
at most once.  What a single operation returns is made of its result, and a linked write is resumed
only when both results are there, which alone decide what it returns.  And the loop needs nobody's
help to deliver what is posted and to resume whom that concerns. -/
structure Completions.Sound (host : Host) (s : Completions) : Prop where
  delivered : s.delivered <+: s.posted
  once : (s.posted.map Prod.fst).Nodup
  stored : ∀ c ∈ s.suspended, ∀ p ∈ c.operations, ∀ result,
    (p.2.tag, result) ∈ s.delivered → (s.memory p.1).result = result
  resumedOnce : (s.resumed.map Prod.fst).Nodup
  returnedSingle : ∀ c ∈ s.submitted, ∀ (address : BitVec 64) (submitError operationError : String),
    c.awaiter = .single address submitError operationError →
    ∀ outcome, (c.id, outcome) ∈ s.resumed →
      ∃ result : Int32, (⟨c.id, .single⟩, result) ∈ s.delivered ∧
        outcome = some (.result
          (if result.toInt < 0 then .error (.ioError (resultMessage host operationError result))
          else .ok result))
  returned : ∀ c ∈ s.submitted, ∀ (writeAddress syncAddress : BitVec 64) (expectedBytes : Nat),
    c.awaiter = .linked writeAddress syncAddress expectedBytes →
    ∀ outcome, (c.id, outcome) ∈ s.resumed →
      ∃ (write sync : Int32) (status : Status),
        (⟨c.id, .write⟩, write) ∈ s.delivered ∧ (⟨c.id, .sync⟩, sync) ∈ s.delivered ∧
        outcome = some (.status status) ∧
        (status = .Ok ↔ write.toInt = expectedBytes ∧ 0 ≤ sync.toInt)
  drained : ∃ n, (s.looped host n).delivered = s.posted ∧
    ∀ c ∈ s.submitted, c.carrier.2 ∈ s.posted.map Prod.fst →
      c.id ∈ (s.looped host n).resumed.map Prod.fst

/-- Until the loop is asked to stop, it is sound, whatever the kernel posts and wherever the
counters of its ring started. -/
theorem completion_loop_sound (host : Host) (s : Completions)
    (h : Reachable (completionLoop host) s) (hrun : s.stopping = false) : s.Sound host := by
  have hinv := Completions.invariant_of_reachable h hrun
  have hnodup := (hinv.tags.nodup_iff.mpr hinv.nodup_tags)
  refine
    { delivered := ⟨_, hinv.posted.symm⟩
      once := hnodup.of_append_left
      stored := fun c hc p hp result hdelivered => hinv.result_eq hc hp hdelivered
      resumedOnce := (hinv.account.nodup_iff.mpr hinv.ids).of_append_right
      returnedSingle := ?_
      returned := ?_
      drained := ?_ }
  · intro c hc address submitError operationError hawaiter outcome hmem
    obtain ⟨memory, hstored, houtcome⟩ := hinv.outcome hc hmem
    rw [hawaiter] at houtcome
    simp only [Coroutine.operations, hawaiter, List.forall_mem_singleton] at hstored
    exact ⟨_, hstored, houtcome⟩
  · intro c hc writeAddress syncAddress expectedBytes hawaiter outcome hmem
    obtain ⟨memory, hstored, houtcome⟩ := hinv.outcome hc hmem
    rw [hawaiter] at houtcome
    simp only [Coroutine.operations, hawaiter, List.forall_mem_cons] at hstored
    exact ⟨_, _, _, hstored.1, hstored.2.1, houtcome, writevAndFDataSync_done_iff host ..⟩
  · exact hinv.exists_all_resumed hrun

theorem Completions.reachable_looped {host : Host} {s : Completions}
    (h : Reachable (completionLoop host) s) (n : Nat) :
    Reachable (completionLoop host) (s.looped host n) := by
  induction n with
  | zero => exact h
  | succ n ih =>
    rw [looped, Function.iterate_succ_apply']
    exact ih.step (.loop none)

/-- A ring of four entries whose counters are about to wrap. -/
def Completions.sample : Completions where
  ring :=
    { head := 0xffffffff#32
      tail := 0xffffffff#32
      mask := 3#32
      entries := 4#32
      slots := fun _ => ⟨0#64, 0⟩ }
  memory _ := { tag := ⟨0, .single⟩ }

/-- A linked write whose first completion is delivered before the kernel posts the second. -/
theorem completion_loop_sound_linked_write :
    let c : Coroutine := ⟨7, .linked 64#64 128#64 10⟩
    let first := ((Completions.sample.submit c).complete 64#64 10).looped Host.sample 4
    let last := (first.complete 128#64 0).looped Host.sample 4
    Reachable (completionLoop Host.sample) last ∧ last.resumed = [(7, some (.status .Ok))] ∧
      last.Sound Host.sample := by
  intro c first last
  have hsample : Reachable (completionLoop Host.sample) Completions.sample :=
    .initial ⟨_, _, ⟨⟨2, by decide, rfl, rfl⟩, by decide⟩, rfl, rfl⟩
  have hsubmit := hsample.step (.submit c (by decide) (by decide) (by decide)
    fun _ _ => List.not_mem_nil)
  have hwrite := hsubmit.step (.complete 64#64 10 (by decide) (fun _ _ h => absurd h.2 (by decide))
    (by decide))
  have hfirst : Reachable (completionLoop Host.sample) first :=
    Completions.reachable_looped hwrite 4
  -- Only the sync is left with the kernel.
  have hout : first.outstanding = [128#64] := by decide +kernel
  have horder : ∀ a ∈ first.outstanding, ¬first.Linked a 128#64 := by
    rw [hout, List.forall_mem_singleton]
    decide +kernel
  have hlast : Reachable (completionLoop Host.sample) last :=
    Completions.reachable_looped
      (hfirst.step (.complete 128#64 0 (by simp [hout]) horder (by decide +kernel))) 4
  exact ⟨hlast, by decide +kernel, completion_loop_sound Host.sample last hlast (by decide +kernel)⟩

end StorageEngine.Io
