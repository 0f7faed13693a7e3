import StorageEngine.Io.Delivery
import StorageEngine.Lib.Progress

/-! The end of an executor.  `closeRing` sets `stopping`, submits a no-operation with a null
`user_data`, and joins the completion thread; when the submission fails it closes the ring, so that
`io_uring_enter` fails.  Until then the completion loop works as if nothing had happened: it mirrors
a loop that is not asked to stop, on a ring without the no-operation. -/

namespace StorageEngine.Io

open CountedRing (Ring)
open Transition

/-- What `closeRing` has done: nothing, set `stopping`, had its no-operation accepted by the kernel,
which later posts the completion, or refused, or joined the completion thread. -/
inductive Closer where
  | running
  | stopping
  | submitted
  | posted
  | closed
  | joined
  deriving DecidableEq

def Cqe.isNop (cqe : Cqe) : Bool := cqe.userData == 0#64

/-- `ahead` is the number of completions that were posted before that of the no-operation. -/
structure Closing where
  completions : Completions
  closer : Closer := .running
  ahead : Option Nat := none

namespace Closing

def loop (host : Host) (enter : Option Int) (s : Closing) : Closing :=
  { s with completions := s.completions.loop host enter }

def submit (s : Closing) (c : Coroutine) : Closing :=
  { s with completions := s.completions.submit c }

def complete (s : Closing) (address : BitVec 64) (res : Int32) : Closing :=
  { s with completions := s.completions.complete address res }

def stop (s : Closing) : Closing :=
  { s with completions.stopping := true, closer := .stopping }

def postNop (s : Closing) (res : Int32) : Closing where
  completions := { s.completions with ring := Completions.post s.completions.ring ⟨0#64, res⟩ }
  closer := .posted
  ahead := some s.completions.posted.length

/-- Operations are submitted while the ring is there, and completed until the thread is joined.  The
entry of a submission that failed may still reach the kernel. -/
inductive Step (host : Host) : Closing → Closing → Prop
  | loop {s : Closing} (enter : Option Int) : Step host s (s.loop host enter)
  | submit {s : Closing} (c : Coroutine) (hopen : s.closer ≠ .closed ∧ s.closer ≠ .joined)
      (hid : c.id ∉ s.completions.submitted.map Coroutine.id) (haddresses : c.addresses.Nodup)
      (hnull : 0#64 ∉ c.addresses) (hfree : ∀ a ∈ c.addresses, a ∉ s.completions.live) :
      Step host s (s.submit c)
  | complete {s : Closing} (address : BitVec 64) (res : Int32) (hopen : s.closer ≠ .joined)
      (hout : address ∈ s.completions.outstanding)
      (horder : ∀ a ∈ s.completions.outstanding, ¬s.completions.Linked a address)
      (hroom : s.completions.ring.count < s.completions.ring.entries.toNat) :
      Step host s (s.complete address res)
  | stop {s : Closing} (hcloser : s.closer = .running) : Step host s s.stop
  | submitNop {s : Closing} (hcloser : s.closer = .stopping) :
      Step host s { s with closer := .submitted }
  | closeFd {s : Closing} (hcloser : s.closer = .stopping) :
      Step host s { s with closer := .closed }
  | postNop {s : Closing} (res : Int32) (hcloser : s.closer = .submitted ∨ s.closer = .closed)
      (hroom : s.completions.ring.count < s.completions.ring.entries.toNat) :
      Step host s (s.postNop res)
  | join {s : Closing} (hcloser : s.closer ≠ .running ∧ s.closer ≠ .stopping)
      (hreturned : s.completions.phase = .returned) : Step host s { s with closer := .joined }

end Closing

def closing (host : Host) : System Closing where
  initial s := ∃ completions, (completionLoop host).initial completions ∧ s = { completions }
  step := Closing.Step host

/-! ### The loop without the no-operation -/

/-- The phase of the mirror: it does not see the no-operation, and it does not return. -/
def LoopPhase.Mirrors : LoopPhase → LoopPhase → Prop
  | .returned, phase => phase = .entering ∨ phase = .draining
  | .taken cqe, phase => phase = if cqe.isNop then .draining else .taken cqe
  | .entering, phase => phase = .entering
  | .draining, phase => phase = .draining
  | .recorded address, phase => phase = .recorded address

/-- The same loop on another ring, in another phase, and not asked to stop. -/
def Completions.mirror (s : Completions) (ring : Ring 32 Cqe) (phase : LoopPhase) : Completions :=
  { s with ring, phase, stopping := false }

/-- The mirror's ring lacks the no-operation. -/
structure Mirrored (s : Completions) (ring : Ring 32 Cqe) (phase : LoopPhase) : Prop where
  original : s.ring.WellFormed
  copy : ring.WellFormed
  entries : ring.entries = s.ring.entries
  contents : ring.contents = s.ring.contents.filter fun cqe => !cqe.isNop
  phase : s.phase.Mirrors phase

/-- The mirror can follow. -/
def Follows (host : Host) (s t : Completions) (ring : Ring 32 Cqe) (phase : LoopPhase) : Prop :=
  ∃ ring' phase', Relation.ReflTransGen (Completions.Step host) (s.mirror ring phase)
    (t.mirror ring' phase') ∧ Mirrored t ring' phase'

namespace Mirrored

variable {host : Host} {s : Completions} {ring : Ring 32 Cqe} {phase : LoopPhase}

theorem count_le (h : Mirrored s ring phase) : ring.count ≤ s.ring.count := by
  rw [← Ring.length_contents, ← Ring.length_contents, h.contents]
  exact List.length_filter_le _ _

theorem entering (h : Mirrored s ring phase) (hphase : s.phase = .entering) (enter : Option Int) :
    Follows host s (s.loop host enter) ring phase := by
  obtain ⟨horiginal, hcopy, hentries, hcontents, hmirrors⟩ := h
  rw [hphase] at hmirrors
  obtain rfl : phase = .entering := hmirrors
  have hstays : Mirrored s ring .entering :=
    ⟨horiginal, hcopy, hentries, hcontents, by rw [hphase]; rfl⟩
  simp only [Completions.loop, hphase]
  cases enter with
  | none =>
    exact ⟨ring, .draining, .single (.loop none), horiginal, hcopy, hentries, hcontents, rfl⟩
  | some errno =>
    simp only
    split
    · exact ⟨ring, .entering, .refl, hstays⟩
    · split
      · exact ⟨ring, .entering, .refl, horiginal, hcopy, hentries, hcontents, .inl rfl⟩
      · exact ⟨ring, .entering, .refl, hstays⟩

theorem draining (h : Mirrored s ring phase) (hphase : s.phase = .draining) (enter : Option Int) :
    Follows host s (s.loop host enter) ring phase := by
  obtain ⟨horiginal, hcopy, hentries, hcontents, hmirrors⟩ := h
  rw [hphase] at hmirrors
  obtain rfl : phase = .draining := hmirrors
  simp only [Completions.loop, hphase]
  split
  · next hempty =>
    have hnone : ring.head = ring.tail := by
      rw [← ring.contents_eq_nil_iff, hcontents, s.ring.contents_eq_nil_iff.mpr hempty]
      rfl
    have hstep : Completions.Step host (s.mirror ring .draining) (s.mirror ring .entering) := by
      have hloop : (s.mirror ring .draining).loop host none = s.mirror ring .entering := by
        simp [Completions.loop, Completions.mirror, hnone]
      exact hloop ▸ .loop none
    exact ⟨ring, .entering, .single hstep, horiginal, hcopy, hentries, hcontents, rfl⟩
  · next hsome =>
    obtain ⟨hring, htaken⟩ := Completions.take_spec horiginal hsome
    generalize s.ring.slots (s.ring.head &&& s.ring.mask) = cqe at htaken ⊢
    rw [htaken, List.filter_cons] at hcontents
    cases hnop : cqe.isNop with
    | true =>
      refine ⟨ring, .draining, .refl, hring, hcopy, hentries, ?_, ?_⟩
      · simpa [hnop] using hcontents
      · simp [LoopPhase.Mirrors, hnop]
    | false =>
      simp only [hnop, Bool.not_false, if_true] at hcontents
      have hne : ring.head ≠ ring.tail := by
        intro hempty
        simp [ring.contents_eq_nil_iff.mpr hempty] at hcontents
      obtain ⟨hring', htaken'⟩ := Completions.take_spec hcopy hne
      rw [hcontents, List.cons.injEq] at htaken'
      obtain ⟨hcqe, hrest⟩ := htaken'
      refine ⟨{ ring with head := ring.head + 1#32 }, .taken cqe, .single ?_, hring, hring',
        hentries, hrest.symm, ?_⟩
      · have hloop : (s.mirror ring .draining).loop host none =
            s.mirror { ring with head := ring.head + 1#32 } (.taken cqe) := by
          simp [Completions.loop, Completions.mirror, hne, hcqe]
        exact hloop ▸ .loop none
      · simp [LoopPhase.Mirrors, hnop]

theorem taken (h : Mirrored s ring phase) {cqe : Cqe} (hphase : s.phase = .taken cqe)
    (enter : Option Int) : Follows host s (s.loop host enter) ring phase := by
  obtain ⟨horiginal, hcopy, hentries, hcontents, hmirrors⟩ := h
  rw [hphase] at hmirrors
  obtain rfl : phase = if cqe.isNop then .draining else .taken cqe := hmirrors
  simp only [Completions.loop, hphase]
  cases hnop : cqe.isNop with
  | true =>
    rw [if_pos (by simpa [Cqe.isNop] using hnop), if_pos rfl]
    split
    · exact ⟨ring, .draining, .refl, horiginal, hcopy, hentries, hcontents, .inr rfl⟩
    · exact ⟨ring, .draining, .refl, horiginal, hcopy, hentries, hcontents, rfl⟩
  | false =>
    have hnull : cqe.userData ≠ 0#64 := by simpa [Cqe.isNop] using hnop
    rw [if_neg hnull, if_neg (by simp)]
    refine ⟨ring, .recorded cqe.userData, .single ?_, horiginal, hcopy, hentries, hcontents, rfl⟩
    have hloop : (s.mirror ring (.taken cqe)).loop host none =
        (s.record cqe).mirror ring (.recorded cqe.userData) := by
      simp only [Completions.loop, Completions.mirror, if_neg hnull]
      rfl
    exact hloop ▸ .loop none

theorem recorded (h : Mirrored s ring phase) {address : BitVec 64}
    (hphase : s.phase = .recorded address) (enter : Option Int) :
    Follows host s (s.loop host enter) ring phase := by
  obtain ⟨horiginal, hcopy, hentries, hcontents, hmirrors⟩ := h
  rw [hphase] at hmirrors
  obtain rfl : phase = .recorded address := hmirrors
  have hloop : (s.mirror ring (.recorded address)).loop host none =
      (s.loop host enter).mirror ring .draining := by
    simp only [Completions.loop, Completions.mirror, hphase]
    cases (s.memory address).continuation <;> rfl
  refine ⟨ring, .draining, .single (hloop ▸ .loop none), ?_⟩
  simp only [Completions.loop, hphase]
  cases (s.memory address).continuation with
  | none => exact ⟨horiginal, hcopy, hentries, hcontents, rfl⟩
  | some id => exact ⟨horiginal, hcopy, hentries, hcontents, rfl⟩

theorem loop (h : Mirrored s ring phase) (enter : Option Int) :
    Follows host s (s.loop host enter) ring phase := by
  cases hphase : s.phase with
  | entering => exact h.entering hphase enter
  | draining => exact h.draining hphase enter
  | taken cqe => exact h.taken hphase enter
  | recorded address => exact h.recorded hphase enter
  | returned =>
    have hloop : s.loop host enter = s := by simp only [Completions.loop, hphase]
    rw [hloop]
    exact ⟨ring, phase, .refl, h⟩

theorem submit (h : Mirrored s ring phase) {c : Coroutine}
    (hid : c.id ∉ s.submitted.map Coroutine.id) (haddresses : c.addresses.Nodup)
    (hnull : 0#64 ∉ c.addresses) (hfree : ∀ a ∈ c.addresses, a ∉ s.live) :
    Follows host s (s.submit c) ring phase :=
  ⟨ring, phase, .single (.submit c hid haddresses hnull hfree), h.original, h.copy, h.entries,
    h.contents, h.phase⟩

theorem complete (h : Mirrored s ring phase) {address : BitVec 64} (hnull : address ≠ 0#64)
    (hout : address ∈ s.outstanding) (horder : ∀ a ∈ s.outstanding, ¬s.Linked a address)
    (hroom : s.ring.count < s.ring.entries.toNat) (res : Int32) :
    Follows host s (s.complete address res) ring phase := by
  have hroom' : ring.count < ring.entries.toNat := by
    rw [h.entries]
    exact Nat.lt_of_le_of_lt h.count_le hroom
  obtain ⟨horiginal, hposted⟩ := Completions.post_spec h.original hroom ⟨address, res⟩
  obtain ⟨hcopy, hcopied⟩ := Completions.post_spec h.copy hroom' ⟨address, res⟩
  refine ⟨Completions.post ring ⟨address, res⟩, phase,
    .single (.complete address res hout horder hroom'), horiginal, hcopy, h.entries, ?_, h.phase⟩
  simp [Completions.complete, hposted, hcopied, h.contents, Cqe.isNop, hnull]

end Mirrored

/-! ### The no-operation -/

/-- Where the no-operation is: not posted; in the ring, behind the completions that were posted
before it; or taken by the loop, which then returns. -/
inductive NopPlace (s : Completions) : Option Nat → Prop
  | absent (hcontents : ∀ cqe ∈ s.ring.contents, cqe.isNop = false)
      (htaken : ∀ cqe, s.phase = .taken cqe → cqe.isNop = false) : NopPlace s none
  | waiting {ahead : Nat} (before : List Cqe) (nop : Cqe) (after : List Cqe)
      (hcontents : s.ring.contents = before ++ nop :: after) (hnop : nop.isNop = true)
      (hbefore : ∀ cqe ∈ before, cqe.isNop = false) (hafter : ∀ cqe ∈ after, cqe.isNop = false)
      (htaken : ∀ cqe, s.phase = .taken cqe → cqe.isNop = false)
      (hahead : ahead + after.length = s.posted.length) : NopPlace s (some ahead)
  | gone {ahead : Nat} (hcontents : ∀ cqe ∈ s.ring.contents, cqe.isNop = false)
      (hphase : s.phase = .returned ∨ ∃ cqe, s.phase = .taken cqe ∧ cqe.isNop = true)
      (hahead : ahead + s.ring.contents.length = s.posted.length) : NopPlace s (some ahead)

namespace NopPlace

variable {host : Host} {s t : Completions} {ahead : Option Nat}

/-- Steps of the loop that take no entry. -/
theorem of_same_ring (h : NopPlace s ahead) (hring : t.ring = s.ring)
    (hposted : t.posted = s.posted) (htaken : ∀ cqe, t.phase ≠ .taken cqe)
    (hreturned : (s.phase = .returned ∨ ∃ cqe, s.phase = .taken cqe ∧ cqe.isNop = true) →
      ahead.isSome → t.phase = .returned) : NopPlace t ahead := by
  cases h with
  | absent hcontents _ => exact .absent (hring ▸ hcontents) fun cqe h => absurd h (htaken cqe)
  | waiting before nop after hcontents hnop hbefore hafter _ hahead =>
    exact .waiting before nop after (hring ▸ hcontents) hnop hbefore hafter
      (fun cqe h => absurd h (htaken cqe)) (hposted ▸ hahead)
  | gone hcontents hphase hahead =>
    exact .gone (hring ▸ hcontents) (.inl (hreturned hphase rfl)) (by rwa [hring, hposted])

theorem take (h : NopPlace s ahead) (hphase : s.phase = .draining) {cqe : Cqe} {rest : List Cqe}
    (hcontents : s.ring.contents = cqe :: rest) (hrest : t.ring.contents = rest)
    (htaken : t.phase = .taken cqe) (hposted : t.posted = s.posted) : NopPlace t ahead := by
  cases h with
  | absent hnone _ =>
    rw [hcontents, List.forall_mem_cons] at hnone
    refine .absent (hrest ▸ hnone.2) fun other hother => ?_
    obtain rfl : cqe = other := by simpa [htaken] using hother
    exact hnone.1
  | waiting before nop after hplace hnop hbefore hafter _ hahead =>
    rw [hcontents] at hplace
    cases before with
    | nil =>
      obtain ⟨rfl, rfl⟩ := List.cons.inj hplace
      refine .gone (hrest ▸ hafter) (.inr ⟨cqe, htaken, hnop⟩) ?_
      rw [hrest, hposted, hahead]
    | cons first before =>
      obtain ⟨rfl, rfl⟩ := List.cons.inj hplace
      obtain ⟨hfirst, hbefore⟩ := List.forall_mem_cons.mp hbefore
      refine .waiting before nop after hrest hnop hbefore hafter (fun other hother => ?_)
        (hposted ▸ hahead)
      obtain rfl : cqe = other := by simpa [htaken] using hother
      exact hfirst
  | gone _ hgone _ => simp [hphase] at hgone

theorem loop (h : NopPlace s ahead) (hring : s.ring.WellFormed)
    (hstop : ahead.isSome → s.stopping = true) (enter : Option Int) :
    NopPlace (s.loop host enter) ahead := by
  have hposted := (Completions.loop_frame host enter s).2.1
  cases hphase : s.phase with
  | entering =>
    refine h.of_same_ring ?_ hposted ?_ (by simp [hphase])
    all_goals
      simp only [Completions.loop, hphase]
      repeat' split
      all_goals simp [hphase]
  | draining =>
    by_cases hempty : s.ring.head = s.ring.tail
    · refine h.of_same_ring ?_ hposted ?_ (by simp [hphase])
      all_goals simp [Completions.loop, hphase, hempty]
    · obtain ⟨-, hcontents⟩ := Completions.take_spec hring hempty
      refine h.take hphase hcontents ?_ ?_ hposted
      all_goals simp [Completions.loop, hphase, hempty]
  | taken cqe =>
    refine h.of_same_ring ?_ hposted ?_ fun hnop hsome => ?_
    · simp only [Completions.loop, hphase, Completions.record]
      repeat' split
      all_goals rfl
    · simp only [Completions.loop, hphase, Completions.record]
      repeat' split
      all_goals simp
    · have hnull : cqe.userData = 0#64 := by simpa [hphase, Cqe.isNop] using hnop
      simp [Completions.loop, hphase, hnull, hstop hsome]
  | recorded address =>
    refine h.of_same_ring ?_ hposted ?_ (by simp [hphase])
    all_goals
      simp only [Completions.loop, hphase]
      split <;> simp [Completions.resume]
  | returned =>
    have hloop : s.loop host enter = s := by simp only [Completions.loop, hphase]
    rwa [hloop]

theorem post (h : NopPlace s ahead) {cqe : Cqe} (hcqe : cqe.isNop = false)
    (hcontents : t.ring.contents = s.ring.contents ++ [cqe]) (hphase : t.phase = s.phase)
    (hposted : t.posted.length = s.posted.length + 1) : NopPlace t ahead := by
  have hsingle : ∀ other ∈ [cqe], other.isNop = false := List.forall_mem_singleton.mpr hcqe
  cases h with
  | absent hnone htaken =>
    exact .absent (hcontents ▸ List.forall_mem_append.mpr ⟨hnone, hsingle⟩) (hphase ▸ htaken)
  | waiting before nop after hplace hnop hbefore hafter htaken hahead =>
    refine .waiting before nop (after ++ [cqe]) ?_ hnop hbefore
      (List.forall_mem_append.mpr ⟨hafter, hsingle⟩) (hphase ▸ htaken) ?_
    · rw [hcontents, hplace, List.append_assoc, List.cons_append]
    · rw [hposted, ← hahead, List.length_append, List.length_singleton, Nat.add_assoc]
  | gone hnone hgone hahead =>
    refine .gone (hcontents ▸ List.forall_mem_append.mpr ⟨hnone, hsingle⟩) (hphase ▸ hgone) ?_
    rw [hcontents, hposted, ← hahead, List.length_append, List.length_singleton, Nat.add_assoc]

/-- Steps that touch neither the ring nor the loop. -/
theorem of_same (h : NopPlace s ahead) (hring : t.ring = s.ring) (hphase : t.phase = s.phase)
    (hposted : t.posted = s.posted) : NopPlace t ahead := by
  cases h with
  | absent hcontents htaken => exact .absent (hring ▸ hcontents) (hphase ▸ htaken)
  | waiting before nop after hplace hnop hbefore hafter htaken hahead =>
    exact .waiting before nop after (hring ▸ hplace) hnop hbefore hafter (hphase ▸ htaken)
      (hposted ▸ hahead)
  | gone hcontents hgone hahead =>
    exact .gone (hring ▸ hcontents) (hphase ▸ hgone) (by rwa [hring, hposted])

theorem postNop (h : NopPlace s none) {nop : Cqe} (hnop : nop.isNop = true)
    (hcontents : t.ring.contents = s.ring.contents ++ [nop]) (hphase : t.phase = s.phase)
    (hposted : t.posted = s.posted) : NopPlace t (some s.posted.length) := by
  cases h with
  | absent hnone htaken =>
    exact .waiting s.ring.contents nop [] hcontents hnop hnone (List.forall_mem_nil _)
      (hphase ▸ htaken) (by rw [hposted]; rfl)

end NopPlace

theorem Completions.stopping_of_returned {host : Host} {enter : Option Int} {s : Completions}
    (h : (s.loop host enter).phase = .returned) : s.phase = .returned ∨ s.stopping = true := by
  revert h
  unfold Completions.loop Completions.record Completions.resume
  repeat' split
  all_goals simp_all

namespace Closing

/-- The loop mirrors one that is not asked to stop, and the no-operation is where it should be. -/
structure Invariant (host : Host) (s : Closing) : Prop where
  mirror : ∃ ring phase, Reachable (completionLoop host) (s.completions.mirror ring phase) ∧
    Mirrored s.completions ring phase
  stopping : s.completions.stopping = true ↔ s.closer ≠ .running
  unposted : s.closer ≠ .posted → s.closer ≠ .joined → s.ahead = none
  posted : s.closer = .posted → s.ahead.isSome
  returned : s.completions.phase = .returned → s.closer ≠ .running
  joined : s.closer = .joined → s.completions.phase = .returned
  place : NopPlace s.completions s.ahead

variable {host : Host} {s t : Closing}

theorem Invariant.ring (h : s.Invariant host) : s.completions.ring.WellFormed := by
  obtain ⟨_, _, _, hmirrored⟩ := h.mirror
  exact hmirrored.original

theorem Invariant.stopping_of_ahead (h : s.Invariant host) (hahead : s.ahead.isSome) :
    s.completions.stopping = true := by
  refine h.stopping.mpr fun hrunning => ?_
  simp [h.unposted (by simp [hrunning]) (by simp [hrunning])] at hahead

theorem Invariant.address_ne (h : s.Invariant host) {address : BitVec 64}
    (hout : address ∈ s.completions.outstanding) : address ≠ 0#64 := by
  obtain ⟨ring, phase, hreachable, -⟩ := h.mirror
  have hinv := Completions.invariant_of_reachable hreachable rfl
  rintro rfl
  exact hinv.null (hinv.inflight _ (List.mem_append_right _ hout))

theorem Invariant.loop (h : s.Invariant host) (enter : Option Int) :
    (s.loop host enter).Invariant host := by
  obtain ⟨ring, phase, hreachable, hmirrored⟩ := h.mirror
  obtain ⟨ring', phase', hrun, hmirrored'⟩ : Follows host _ _ _ _ := hmirrored.loop enter
  have hstopping := (Completions.loop_frame host enter s.completions).1
  refine
    { mirror := ⟨ring', phase', hreachable.trans hrun, hmirrored'⟩
      stopping := by simpa only [Closing.loop, hstopping] using h.stopping
      unposted := h.unposted
      posted := h.posted
      returned := fun hreturned => ?_
      joined := fun hjoined => by simp [Closing.loop, Completions.loop, h.joined hjoined]
      place := h.place.loop h.ring h.stopping_of_ahead enter }
  rcases Completions.stopping_of_returned hreturned with hreturned | hstopping
  · exact h.returned hreturned
  · exact h.stopping.mp hstopping

theorem Invariant.submit (h : s.Invariant host) {c : Coroutine}
    (hid : c.id ∉ s.completions.submitted.map Coroutine.id) (haddresses : c.addresses.Nodup)
    (hnull : 0#64 ∉ c.addresses) (hfree : ∀ a ∈ c.addresses, a ∉ s.completions.live) :
    (s.submit c).Invariant host := by
  obtain ⟨ring, phase, hreachable, hmirrored⟩ := h.mirror
  obtain ⟨ring', phase', hrun, hmirrored'⟩ : Follows host _ _ _ _ :=
    hmirrored.submit hid haddresses hnull hfree
  exact { h with
    mirror := ⟨ring', phase', hreachable.trans hrun, hmirrored'⟩
    place := h.place.of_same rfl rfl rfl }

theorem Invariant.complete (h : s.Invariant host) {address : BitVec 64}
    (hout : address ∈ s.completions.outstanding)
    (horder : ∀ a ∈ s.completions.outstanding, ¬s.completions.Linked a address)
    (hroom : s.completions.ring.count < s.completions.ring.entries.toNat) (res : Int32) :
    (s.complete address res).Invariant host := by
  obtain ⟨ring, phase, hreachable, hmirrored⟩ := h.mirror
  have hnull := h.address_ne hout
  obtain ⟨ring', phase', hrun, hmirrored'⟩ : Follows host _ _ _ _ :=
    hmirrored.complete hnull hout horder hroom res
  obtain ⟨-, hcontents⟩ := Completions.post_spec h.ring hroom ⟨address, res⟩
  have hcqe : Cqe.isNop ⟨address, res⟩ = false := by simpa [Cqe.isNop] using hnull
  exact { h with
    mirror := ⟨ring', phase', hreachable.trans hrun, hmirrored'⟩
    place := h.place.post hcqe hcontents rfl (by simp [Closing.complete, Completions.complete]) }

theorem Invariant.stop (h : s.Invariant host) (hcloser : s.closer = .running) :
    s.stop.Invariant host := by
  obtain ⟨ring, phase, hreachable, hmirrored⟩ := h.mirror
  exact
    { mirror := ⟨ring, phase, hreachable, { hmirrored with }⟩
      stopping := by simp [Closing.stop]
      unposted := fun _ _ => h.unposted (by simp [hcloser]) (by simp [hcloser])
      posted := by simp [Closing.stop]
      returned := by simp [Closing.stop]
      joined := by simp [Closing.stop]
      place := h.place.of_same rfl rfl rfl }

theorem Invariant.submitNop (h : s.Invariant host) (hcloser : s.closer = .stopping)
    {closer : Closer} (hnext : closer = .submitted ∨ closer = .closed) :
    { s with closer }.Invariant host := by
  have hahead := h.unposted (by simp [hcloser]) (by simp [hcloser])
  have hstopping := h.stopping.mpr (by simp [hcloser])
  exact { h with
    stopping := by rcases hnext with rfl | rfl <;> simp [hstopping]
    unposted := fun _ _ => hahead
    posted := by rcases hnext with rfl | rfl <;> simp
    returned := by rcases hnext with rfl | rfl <;> simp
    joined := by rcases hnext with rfl | rfl <;> simp }

theorem Invariant.postNop (h : s.Invariant host)
    (hcloser : s.closer = .submitted ∨ s.closer = .closed)
    (hroom : s.completions.ring.count < s.completions.ring.entries.toNat) (res : Int32) :
    (s.postNop res).Invariant host := by
  obtain ⟨ring, phase, hreachable, hmirrored⟩ := h.mirror
  obtain ⟨hring, hcontents⟩ := Completions.post_spec h.ring hroom ⟨0#64, res⟩
  obtain ⟨hrunning, hposted, hjoined⟩ :
      s.closer ≠ .running ∧ s.closer ≠ .posted ∧ s.closer ≠ .joined := by
    rcases hcloser with hcloser | hcloser <;> simp [hcloser]
  have hplace := h.place
  rw [h.unposted hposted hjoined] at hplace
  exact
    { mirror := ⟨ring, phase, hreachable, hring, hmirrored.copy, hmirrored.entries,
        by simp [Closing.postNop, hcontents, hmirrored.contents, Cqe.isNop], hmirrored.phase⟩
      stopping := by simp [Closing.postNop, h.stopping.mpr hrunning]
      unposted := by simp [Closing.postNop]
      posted := by simp [Closing.postNop]
      returned := by simp [Closing.postNop]
      joined := by simp [Closing.postNop]
      place := hplace.postNop rfl hcontents rfl rfl }

theorem invariant_step (h : s.Invariant host) (hst : Step host s t) : t.Invariant host := by
  cases hst with
  | loop enter => exact h.loop enter
  | submit c hopen hid haddresses hnull hfree => exact h.submit hid haddresses hnull hfree
  | complete address res hopen hout horder hroom => exact h.complete hout horder hroom res
  | stop hcloser => exact h.stop hcloser
  | submitNop hcloser => exact h.submitNop hcloser (.inl rfl)
  | closeFd hcloser => exact h.submitNop hcloser (.inr rfl)
  | postNop res hcloser hroom => exact h.postNop hcloser hroom res
  | join hcloser hreturned =>
    exact { h with
      stopping := by simpa [hcloser.1] using h.stopping
      unposted := by simp
      posted := by simp
      returned := by simp
      joined := fun _ => hreturned }

theorem invariant_of_reachable (h : Reachable (closing host) s) : s.Invariant host := by
  refine h.invariant ?_ fun s t _ hs hst => invariant_step hs hst
  rintro _ ⟨_, ⟨ring, memory, hring, hempty, rfl⟩, rfl⟩
  have hcontents := ring.contents_eq_nil_iff.mpr hempty
  exact
    { mirror := ⟨ring, .entering, .initial ⟨ring, memory, hring, hempty, rfl⟩, hring, hring, rfl,
        by simp [hcontents], rfl⟩
      stopping := by simp
      unposted := fun _ _ => rfl
      posted := by simp
      returned := by simp
      joined := by simp
      place := .absent (by simp [hcontents]) (by simp) }

/-! ### What was completed before the no-operation -/

/-- The loop that returns from the no-operation has delivered what was posted before it. -/
structure Sound (s : Closing) : Prop where
  delivered : s.completions.delivered <+: s.completions.posted
  resumedOnce : (s.completions.resumed.map Prod.fst).Nodup
  returned : s.completions.phase = .returned → s.completions.stopping = true
  joined : s.closer = .joined → s.completions.phase = .returned
  drained : ∀ ahead, s.ahead = some ahead →
    (∀ cqe ∈ s.completions.ring.contents, cqe.isNop = false) →
    s.completions.delivered = s.completions.posted.take ahead ∧
    ∀ c ∈ s.completions.submitted,
      c.carrier.2 ∈ (s.completions.posted.take ahead).map Prod.fst →
        c.id ∈ s.completions.resumed.map Prod.fst

end Closing

/-- Of two coroutines one is completed before the no-operation and the other one behind it. -/
def Closing.sample : Closing :=
  let first : Coroutine := ⟨7, .single 64#64 "submit" "read"⟩
  let second : Coroutine := ⟨8, .single 128#64 "submit" "read"⟩
  let suspended := ((Closing.mk Completions.sample .running none).submit first).submit second
  let stopped := { (suspended.complete 64#64 10).stop with closer := .submitted }
  (stopped.postNop 0).complete 128#64 20

theorem Closing.sample_reachable : Reachable (closing Host.sample) Closing.sample := by
  have hinitial : Reachable (closing Host.sample) ⟨Completions.sample, .running, none⟩ :=
    .initial ⟨_, ⟨_, _, ⟨⟨2, by decide, rfl, rfl⟩, by decide⟩, rfl, rfl⟩, rfl⟩
  have hfirst := hinitial.step (.submit ⟨7, .single 64#64 "submit" "read"⟩ (by decide) (by decide)
    (by decide) (by decide) fun _ _ => List.not_mem_nil)
  have hsecond := hfirst.step (.submit ⟨8, .single 128#64 "submit" "read"⟩ (by decide) (by decide)
    (by decide) (by decide) (show ∀ a ∈ [128#64], a ∉ [64#64] by simp))
  have hcompleted := hsecond.step (.complete 64#64 10 (by decide) (by decide +kernel)
    (fun _ _ h => absurd h.2 (by decide +kernel)) (by decide +kernel))
  have hstopped := (hcompleted.step (.stop rfl)).step (.submitNop rfl)
  have hposted := hstopped.step (.postNop 0 (.inl rfl) (by decide +kernel))
  exact hposted.step (.complete 128#64 20 (by decide) (by decide +kernel)
    (fun _ _ h => absurd h.2 (by decide +kernel)) (by decide +kernel))

namespace Closing

variable {host : Host} {s t : Closing}

/-- The completions in front of the no-operation. -/
def distance (s : Closing) : Nat :=
  (s.completions.ring.contents.takeWhile fun cqe => !cqe.isNop).length

def rank (s : Closing) : Nat :=
  match s.completions.phase with
  | .entering => 3 * s.distance + 3
  | .draining => 3 * s.distance + 2
  | .taken cqe => if cqe.isNop then 1 else 3 * s.distance + 4
  | .recorded _ => 3 * s.distance + 3
  | .returned => 0

/-- The loop goes on.  `io_uring_enter` is not interrupted, and it succeeds when there is a
completion. -/
def Works (host : Host) (s t : Closing) : Prop :=
  s.completions.phase ≠ .returned ∧ ∃ enter : Option Int,
    (s.completions.phase = .entering →
      enter ≠ some eintr ∧ (enter = none → s.completions.ring.contents ≠ [])) ∧
    t = s.loop host enter

theorem Works.step (h : Works host s t) : Step host s t := by
  obtain ⟨-, enter, -, rfl⟩ := h
  exact .loop enter

def Idles (host : Host) (s t : Closing) : Prop := Step host s t ∧ ¬Works host s t

/-- The no-operation is posted. -/
structure Leaving (host : Host) (s : Closing) : Prop where
  invariant : s.Invariant host
  posted : s.ahead.isSome

theorem Leaving.step (h : s.Leaving host) (hst : Step host s t) : t.Leaving host := by
  refine ⟨invariant_step h.invariant hst, ?_⟩
  cases hst with
  | postNop => rfl
  | _ => exact h.posted

theorem Leaving.contents_ne (h : s.Leaving host) (hphase : s.completions.phase ≠ .returned)
    (htaken : ∀ cqe, s.completions.phase = .taken cqe → cqe.isNop = false) :
    s.completions.ring.contents ≠ [] := by
  obtain ⟨ahead, hahead⟩ := Option.isSome_iff_exists.mp h.posted
  have hplace := h.invariant.place
  rw [hahead] at hplace
  cases hplace with
  | waiting before nop after hcontents => simp [hcontents]
  | gone _ hgone _ =>
    rcases hgone with hreturned | ⟨cqe, hcqe, hnop⟩
    · contradiction
    · simp [htaken cqe hcqe] at hnop

theorem Leaving.rank_loop (h : s.Leaving host) {enter : Option Int}
    (hphase : s.completions.phase ≠ .returned)
    (henter : s.completions.phase = .entering → enter ≠ some eintr) :
    (s.loop host enter).rank < s.rank := by
  have hstop := h.invariant.stopping_of_ahead h.posted
  cases hp : s.completions.phase with
  | entering =>
    have hne := henter hp
    cases enter with
    | none => simp [rank, Closing.loop, Completions.loop, hp, distance]
    | some errno =>
      have hne : errno ≠ eintr := fun h => hne (congrArg some h)
      simp [rank, Closing.loop, Completions.loop, hp, hne, hstop]
  | draining =>
    have hne : s.completions.ring.head ≠ s.completions.ring.tail := by
      rw [Ne, ← Ring.contents_eq_nil_iff]
      exact h.contents_ne hphase (by simp [hp])
    obtain ⟨-, htake⟩ := Completions.take_spec h.invariant.ring hne
    simp only [rank, Closing.loop, Completions.loop, hp, hne, if_false, distance, htake]
    split
    · omega
    · next hnop =>
      simp only [hnop, Bool.not_false, List.takeWhile_cons_of_pos, List.length_cons]
      omega
  | taken cqe =>
    cases hnop : cqe.isNop with
    | true =>
      have hnull : cqe.userData = 0#64 := by simpa [Cqe.isNop] using hnop
      simp [rank, Closing.loop, Completions.loop, hp, hnull, hstop, hnop]
    | false =>
      have hnull : cqe.userData ≠ 0#64 := by simpa [Cqe.isNop] using hnop
      simp [rank, Closing.loop, Completions.loop, hp, hnull, hnop, Completions.record, distance]
  | recorded address =>
    cases hcont : (s.completions.memory address).continuation <;>
      simp [rank, Closing.loop, Completions.loop, hp, hcont, Completions.resume, distance]
  | returned => exact absurd hp hphase

theorem Leaving.rank_works (h : s.Leaving host) (hst : Works host s t) : t.rank < s.rank := by
  obtain ⟨hphase, enter, henter, rfl⟩ := hst
  exact h.rank_loop hphase fun hentering => (henter hentering).1

theorem distance_eq {before after : List Cqe} {nop : Cqe}
    (hcontents : s.completions.ring.contents = before ++ nop :: after)
    (hbefore : ∀ cqe ∈ before, cqe.isNop = false) (hnop : nop.isNop = true) :
    s.distance = before.length := by
  rw [distance, hcontents, List.takeWhile_append_of_pos (by simpa using hbefore)]
  simp [hnop]

/-- Completions that are posted now are behind the no-operation. -/
theorem Leaving.rank_complete (h : s.Leaving host) {address : BitVec 64} {res : Int32}
    (hroom : s.completions.ring.count < s.completions.ring.entries.toNat) :
    (s.complete address res).rank = s.rank := by
  obtain ⟨-, hposted⟩ := Completions.post_spec h.invariant.ring hroom ⟨address, res⟩
  obtain ⟨ahead, hahead⟩ := Option.isSome_iff_exists.mp h.posted
  have hplace := h.invariant.place
  rw [hahead] at hplace
  cases hplace with
  | waiting before nop after hcontents hnop hbefore =>
    have hposted : (s.complete address res).completions.ring.contents =
        before ++ nop :: (after ++ [⟨address, res⟩]) := by
      rwa [hcontents, List.append_assoc] at hposted
    have hdistance : (s.complete address res).distance = s.distance :=
      (distance_eq hposted hbefore hnop).trans (distance_eq hcontents hbefore hnop).symm
    rw [rank, rank, hdistance]
    rfl
  | gone _ hgone _ =>
    rcases hgone with hphase | ⟨cqe, hphase, hnop⟩
    · simp [rank, Closing.complete, Completions.complete, hphase]
    · simp [rank, Closing.complete, Completions.complete, hphase, hnop]

theorem Leaving.rank_idles (h : s.Leaving host) (hst : Idles host s t) : t.rank ≤ s.rank := by
  cases hst.1 with
  | loop enter =>
    by_cases hreturned : s.completions.phase = .returned
    · simp [rank, Closing.loop, Completions.loop, hreturned]
    by_cases heintr : s.completions.phase = .entering ∧ enter = some eintr
    · simp [rank, Closing.loop, Completions.loop, heintr, distance]
    · exact (h.rank_loop hreturned fun hphase henter => heintr ⟨hphase, henter⟩).le
  | complete address res hopen hout horder hroom => exact (h.rank_complete hroom).le
  | postNop res hcloser =>
    have hahead := h.posted
    rcases hcloser with hcloser | hcloser <;>
      simp [h.invariant.unposted (by simp [hcloser]) (by simp [hcloser])] at hahead
  | _ => exact Nat.le_refl _

theorem rank_le (s : Closing) : s.rank ≤ 3 * s.completions.ring.count + 4 := by
  have hdistance : s.distance ≤ s.completions.ring.count := by
    rw [← Ring.length_contents]
    exact (List.takeWhile_prefix _).length_le
  unfold rank
  repeat' split
  all_goals omega

end Closing

/-- Once the no-operation is posted, the loop makes a bounded number of steps, whatever happens
beside it, and it can always make the next one until it has returned. -/
theorem close_ring_joins (host : Host) (s : Closing) (h : Reachable (closing host) s)
    (hposted : s.ahead.isSome) (steps idle : Nat) (t : Closing)
    (hrun : Run (Closing.Works host) (Closing.Idles host) steps idle s t) :
    steps ≤ 3 * s.completions.ring.count + 4 ∧
      (t.completions.phase ≠ .returned → ∃ u, Closing.Works host t u) := by
  have hleaving : s.Leaving host := ⟨Closing.invariant_of_reachable h, hposted⟩
  obtain ⟨ht, hle⟩ := hrun.steps_le
    (fun _ _ hs hst => hs.step (hst.elim Closing.Works.step And.left))
    (fun _ _ hs hst => hs.rank_works hst)
    (fun _ _ hs hst => Nat.le_add_right_of_le (k := 0) (hs.rank_idles hst)) hleaving
  rw [Nat.zero_mul] at hle
  have := s.rank_le
  refine ⟨by omega, fun hphase => ⟨_, hphase, none, fun hentering => ⟨by simp, fun _ => ?_⟩, rfl⟩⟩
  exact ht.contents_ne hphase (by simp [hentering])

theorem close_ring_joins_after_interrupt :
    ∃ t, Run (Closing.Works Host.sample) (Closing.Idles Host.sample) 1 1 Closing.sample t ∧
      1 ≤ 3 * Closing.sample.completions.ring.count + 4 ∧
      (t.completions.phase ≠ .returned → ∃ u, Closing.Works Host.sample t u) := by
  have hleaving : Closing.sample.Leaving Host.sample :=
    ⟨Closing.invariant_of_reachable Closing.sample_reachable, rfl⟩
  have hinterrupted : Closing.Idles Host.sample Closing.sample Closing.sample :=
    ⟨.loop (some eintr), fun hworks => Nat.lt_irrefl _ (hleaving.rank_works hworks)⟩
  have henters : Closing.Works Host.sample Closing.sample (Closing.sample.loop Host.sample none) :=
    ⟨LoopPhase.noConfusion, none, fun _ => ⟨by decide, fun _ => by decide +kernel⟩, rfl⟩
  have hrun := Run.work (.idle (.refl _) hinterrupted) henters
  exact ⟨_, hrun, close_ring_joins _ _ Closing.sample_reachable rfl 1 1 _ hrun⟩

end StorageEngine.Io
