import StorageEngine.Io.Delivery
import StorageEngine.Io.Submission

/-! The executor as a whole: coroutines put entries into the submission ring and are suspended, the
kernel works on the entries that it has taken and posts completions, and the completion loop
delivers them.  As long as every call that fails leaves no entry behind, this is the completion side
with the entries of the ring among the operations that the kernel works on. -/

namespace StorageEngine.Io

open CountedRing (Ring)
open Transition

/-- What `await_suspend` of an awaiter submits. -/
def Awaiter.request (first second : Sqe) : Awaiter → Request
  | .single address _ _ => .single first address
  | .linked write sync _ => .linked first write second sync

/-- Both rings; `owners` are the coroutines of the entries in the submission ring. -/
structure UringExecutor where
  submission : Submission
  completions : Completions
  owners : List Nat := []

namespace UringExecutor

/-- `await_suspend`, without `SQPOLL`.  The kernel works on what it has taken, whoever submitted it.
When the call fails the coroutine goes on, and its frame is gone. -/
def suspend (host : Host) (s : UringExecutor) (c : Coroutine) (request : Request)
    (result : EnterResult) : UringExecutor :=
  let (status, submission) := s.submission.call host request result
  let taken := submission.consumed.drop s.submission.consumed.length
  let published := submission.published.drop s.submission.published.length
  let completions := if status.ok then s.completions.submit c else s.completions
  { submission
    completions := { completions with
      outstanding := s.completions.outstanding ++ taken.map Sqe.userData }
    owners := (s.owners ++ published.map fun _ => c.id).drop taken.length }

inductive Step (host : Host) (failures : Bool) : UringExecutor → UringExecutor → Prop
  | suspend {s : UringExecutor} (c : Coroutine) (first second : Sqe) (result : EnterResult)
      (hresult : failures = true ∨ result.succeeded = true)
      (hid : c.id ∉ s.completions.submitted.map Coroutine.id) (haddresses : c.addresses.Nodup)
      (hnull : 0#64 ∉ c.addresses) (hfree : ∀ a ∈ c.addresses, a ∉ s.completions.live) :
      Step host failures s (s.suspend host c (c.awaiter.request first second) result)
  | complete {s : UringExecutor} (address : BitVec 64) (res : Int32)
      (hout : address ∈ s.completions.outstanding)
      (horder : ∀ a ∈ s.completions.outstanding, ¬s.completions.Linked a address)
      (hroom : s.completions.ring.count < s.completions.ring.entries.toNat) :
      Step host failures s { s with completions := s.completions.complete address res }
  | loop {s : UringExecutor} (enter : Option Int) :
      Step host failures s { s with completions := s.completions.loop host enter }

end UringExecutor

/-- `failures` says whether `io_uring_enter` may fail after entries were put into the ring. -/
def executor (host : Host) (failures : Bool) : System UringExecutor where
  initial s := ∃ (state : State) (completions : Completions), state.Fresh ∧
    (completionLoop host).initial completions ∧ s = { submission := { state }, completions }
  step := UringExecutor.Step host failures

/-! ### The entries of the ring as operations of the kernel -/

/-- What a call with room in the ring does to the entries. -/
theorem Submission.call_taken {s : Submission} (h : s.Valid) (host : Host)
    {request : Request} (result : EnterResult)
    (hroom : s.state.ring.count + request.sqes.length ≤ s.state.sq.ringEntries.toNat) :
    ∃ status after taken, s.call host request result = (status, after) ∧
      status.ok = result.succeeded ∧ after.Valid ∧ after.consumed = s.consumed ++ taken ∧
      after.published = s.published ++ request.sqes ∧
      taken ++ after.state.ring.contents = s.state.ring.contents ++ request.sqes := by
  obtain ⟨status, after, hcall, hok, hafter, hpublished, -, -⟩ := call_fits h host result hroom
  have hconsumed : s.consumed <+: (s.call host request result).2.consumed := ⟨_, rfl⟩
  rw [hcall] at hconsumed
  obtain ⟨taken, htaken⟩ := hconsumed
  refine ⟨status, after, taken, hcall, hok, hafter, htaken.symm, hpublished, ?_⟩
  have hpending := hafter.pending
  rw [hpublished, h.pending, ← htaken, List.append_assoc, List.append_assoc] at hpending
  exact (List.append_cancel_left hpending).symm

theorem Completions.loop_outstanding (host : Host) (enter : Option Int) (s : Completions)
    (outstanding : List (BitVec 64)) :
    ({ s with outstanding } : Completions).loop host enter =
      { s.loop host enter with outstanding } := by
  obtain ⟨ring, memory, stopping, phase, _⟩ := s
  cases phase with
  | entering =>
    cases enter with
    | none => rfl
    | some errno =>
      simp only [loop]
      split
      · rfl
      · split <;> rfl
  | draining =>
    simp only [loop]
    split <;> rfl
  | taken cqe =>
    simp only [loop]
    split
    · split <;> rfl
    · rfl
  | recorded address =>
    simp only [loop]
    split <;> rfl
  | returned => rfl

theorem Completions.tag_loop (host : Host) (enter : Option Int) (s : Completions) :
    (s.loop host enter).tag = s.tag := by
  have hrecord : ∀ cqe, (s.record cqe).tag = s.tag := by
    intro cqe
    funext a
    exact (Invariant.record_operation s cqe a).1
  unfold loop
  repeat' split
  all_goals first | rfl | exact hrecord _

namespace UringExecutor

variable {host : Host}

def operations (s : UringExecutor) : List (BitVec 64) :=
  s.completions.outstanding ++ s.submission.state.ring.contents.map Sqe.userData

def completionSide (s : UringExecutor) : Completions :=
  { s.completions with outstanding := s.operations }

structure Simulated (host : Host) (s : UringExecutor) : Prop where
  valid : s.submission.Valid
  reachable : Reachable (completionLoop host) s.completionSide
  running : s.completions.stopping = false
  owners : s.owners =
    s.submission.state.ring.contents.map fun sqe => (s.completions.tag sqe.userData).owner

theorem addresses_request (c : Coroutine) (first second : Sqe) :
    (c.awaiter.request first second).sqes.map Sqe.userData = c.addresses := by
  obtain ⟨id, awaiter⟩ := c
  cases awaiter <;> rfl

theorem Simulated.invariant {s : UringExecutor} (h : s.Simulated host) :
    s.completionSide.Invariant host :=
  Completions.invariant_of_reachable h.reachable h.running

theorem Simulated.live_of_entry {s : UringExecutor} (h : s.Simulated host) {sqe : Sqe}
    (hsqe : sqe ∈ s.submission.state.ring.contents) : sqe.userData ∈ s.completions.live :=
  h.invariant.inflight _ (List.mem_append_right _
    (List.mem_append_right _ (List.mem_map_of_mem hsqe)))

theorem Simulated.owners_submit {s : UringExecutor} (h : s.Simulated host) {c : Coroutine}
    (hfree : ∀ a ∈ c.addresses, a ∉ s.completions.live) :
    (s.submission.state.ring.contents.map fun sqe =>
      ((s.completions.submit c).tag sqe.userData).owner) = s.owners := by
  rw [h.owners]
  refine List.map_congr_left fun sqe hsqe => ?_
  rw [Completions.Invariant.submit_tag hfree (h.live_of_entry hsqe)]

theorem owners_request {s : Completions} {c : Coroutine} (first second : Sqe)
    (haddresses : c.addresses.Nodup) :
    ((c.awaiter.request first second).sqes.map fun sqe =>
      ((s.submit c).tag sqe.userData).owner) =
      (c.awaiter.request first second).sqes.map fun _ => c.id := by
  refine List.map_congr_left fun sqe hsqe => ?_
  have hmem := List.mem_map_of_mem (f := Sqe.userData) hsqe
  rw [addresses_request, Coroutine.addresses, List.mem_map] at hmem
  obtain ⟨p, hp, haddress⟩ := hmem
  rw [← haddress, Completions.Invariant.submit_tag_new haddresses hp, Coroutine.owner_eq hp]

theorem Simulated.suspend {s : UringExecutor} (h : s.Simulated host) (c : Coroutine)
    (first second : Sqe) {result : EnterResult} (hresult : result.succeeded = true)
    (hid : c.id ∉ s.completions.submitted.map Coroutine.id) (haddresses : c.addresses.Nodup)
    (hnull : 0#64 ∉ c.addresses) (hfree : ∀ a ∈ c.addresses, a ∉ s.completions.live) :
    (s.suspend host c (c.awaiter.request first second) result).Simulated host := by
  by_cases hroom : s.submission.state.ring.count + (c.awaiter.request first second).sqes.length ≤
      s.submission.state.sq.ringEntries.toNat
  · obtain ⟨status, after, taken, hcall, hok, hafter, htaken, hpublished, hmoved⟩ :=
      Submission.call_taken h.valid host result hroom
    rw [hresult] at hok
    have hsuspend : s.suspend host c (c.awaiter.request first second) result =
        { submission := after
          completions := { s.completions.submit c with
            outstanding := s.completions.outstanding ++ taken.map Sqe.userData }
          owners := (s.owners ++ (c.awaiter.request first second).sqes.map fun _ => c.id).drop
            taken.length } := by
      simp [UringExecutor.suspend, hcall, hok, htaken, hpublished]
    have hside : (s.suspend host c (c.awaiter.request first second) result).completionSide =
        s.completionSide.submit c := by
      have hmap := congrArg (List.map Sqe.userData) hmoved
      rw [List.map_append, List.map_append, addresses_request] at hmap
      simp only [hsuspend, completionSide, operations, Completions.submit, List.append_assoc, hmap]
    refine ⟨?_, ?_, ?_, ?_⟩
    · rw [hsuspend]
      exact hafter
    · rw [hside]
      exact h.reachable.step (.submit c hid haddresses hnull hfree)
    · rw [hsuspend]
      exact h.running
    · have hmap := congrArg
        (List.map fun sqe : Sqe => ((s.completions.submit c).tag sqe.userData).owner) hmoved
      rw [List.map_append, List.map_append, h.owners_submit hfree,
        owners_request first second haddresses] at hmap
      rw [hsuspend, ← hmap]
      exact List.drop_left' (List.length_map _)
  · have hsuspend : s.suspend host c (c.awaiter.request first second) result = s := by
      simp [UringExecutor.suspend, Submission.call_full h.valid host result hroom]
    rw [hsuspend]
    exact h

/-- The entries that the kernel has not taken are behind those it works on. -/
theorem Simulated.complete {s : UringExecutor} (h : s.Simulated host) {address : BitVec 64}
    (res : Int32) (hout : address ∈ s.completions.outstanding)
    (horder : ∀ a ∈ s.completions.outstanding, ¬s.completions.Linked a address)
    (hroom : s.completions.ring.count < s.completions.ring.entries.toNat) :
    ({ s with completions := s.completions.complete address res } : UringExecutor).Simulated
      host := by
  have hside : ({ s with completions := s.completions.complete address res } :
      UringExecutor).completionSide = s.completionSide.complete address res := by
    simp only [completionSide, operations, Completions.complete, List.erase_append_left _ hout]
    rfl
  refine ⟨h.valid, ?_, h.running, h.owners⟩
  rw [hside]
  refine h.reachable.step (.complete address res (List.mem_append_left _ hout) ?_ hroom)
  intro a ha
  rcases List.mem_append.mp ha with ha | ha
  · exact horder a ha
  · have houtstanding := (List.pairwise_append.mp h.invariant.order).2.1
    exact (List.pairwise_append.mp houtstanding).2.2 address hout a ha

theorem completionSide_loop (s : UringExecutor) (enter : Option Int) :
    ({ s with completions := s.completions.loop host enter } : UringExecutor).completionSide =
      s.completionSide.loop host enter := by
  have hoperations : ({ s with completions := s.completions.loop host enter } :
      UringExecutor).operations = s.operations := by
    simp only [operations, (Completions.loop_frame host enter s.completions).2.2.2]
  rw [completionSide, hoperations]
  exact (Completions.loop_outstanding host enter s.completions s.operations).symm

theorem Simulated.loop {s : UringExecutor} (h : s.Simulated host) (enter : Option Int) :
    ({ s with completions := s.completions.loop host enter } : UringExecutor).Simulated host := by
  refine ⟨h.valid, ?_, ?_, ?_⟩
  · rw [completionSide_loop]
    exact h.reachable.step (.loop enter)
  · exact (Completions.loop_frame host enter s.completions).1.trans h.running
  · rw [Completions.tag_loop]
    exact h.owners

theorem simulated_step {s t : UringExecutor} (hs : s.Simulated host) (hst : Step host false s t) :
    t.Simulated host := by
  cases hst with
  | suspend c first second result hresult hid haddresses hnull hfree =>
    exact hs.suspend c first second (by simpa using hresult) hid haddresses hnull hfree
  | complete address res hout horder hroom => exact hs.complete res hout horder hroom
  | loop enter => exact hs.loop enter

theorem simulated_of_reachable {s : UringExecutor} (h : Reachable (executor host false) s) :
    s.Simulated host := by
  refine h.invariant ?_ fun s t _ hs hst => simulated_step hs hst
  rintro _ ⟨state, completions, hfresh, hcompletions, rfl⟩
  have hcontents := state.ring.contents_eq_nil_iff.mpr hfresh.empty
  obtain ⟨ring, memory, hring, hempty, rfl⟩ := hcompletions
  refine ⟨hfresh.valid, .initial ⟨ring, memory, hring, hempty, ?_⟩, rfl, ?_⟩
  · simp [completionSide, operations, hcontents]
  · simp [hcontents]

/-- The loop writes into frames that are there, and a coroutine is resumed only after the kernel has
taken the entries that it submitted. -/
structure Sound (s : UringExecutor) : Prop where
  alive : ∀ cqe, s.completions.phase = .taken cqe → cqe.userData ∈ s.completions.live
  own : ∀ r ∈ s.completions.resumed, r.1 ∉ s.owners

theorem Simulated.sound {s : UringExecutor} (h : s.Simulated host) : s.Sound where
  alive := by
    intro cqe hphase
    refine h.invariant.inflight _ (List.mem_append_left _ ?_)
    have hphase' : s.completionSide.phase = .taken cqe := hphase
    simp [Completions.undelivered, hphase']
  own := by
    intro r hr howner
    rw [h.owners, List.mem_map] at howner
    obtain ⟨sqe, hsqe, hid⟩ := howner
    -- The owner of an entry is suspended, so it is not among the resumed coroutines.
    obtain ⟨c, hc, p, hp, -, htag, -⟩ := h.invariant.exists_operation (h.live_of_entry hsqe)
    have hnodup := h.invariant.account.nodup_iff.mpr h.invariant.ids
    refine (List.nodup_append.mp hnodup).2.2 c.id (List.mem_map_of_mem hc) r.1
      (List.mem_map_of_mem hr) ?_
    rw [← hid, ← Coroutine.owner_eq hp, ← htag]
    rfl

theorem reachable_sample (failures : Bool) :
    Reachable (executor .sample failures) ⟨{ state := .sample }, .sample, []⟩ :=
  .initial ⟨.sample, .sample, State.sample_fresh,
    ⟨_, _, ⟨⟨2, by decide, rfl, rfl⟩, by decide⟩, rfl, rfl⟩, rfl⟩

/-- A write whose submission fails leaves its entries behind.  The frame of the next write is at the
same place, and it takes their completions for its own: it returns `Ok` while both of its entries
are still in the ring. -/
theorem exists_resumed_early : ∃ s, Reachable (executor .sample true) s ∧
    s.completions.resumed = [(2, some (.status .Ok))] ∧ s.owners = [2, 2] := by
  have h := (reachable_sample true).step (.suspend ⟨1, .linked 64#64 128#64 10⟩
    { opcode := .writev } { opcode := .fsync } (.error 11) (.inl rfl) (by decide) (by decide)
    (by decide) fun _ _ => List.not_mem_nil)
  have h := h.step (.suspend ⟨2, .linked 64#64 128#64 10⟩
    { opcode := .writev } { opcode := .fsync } (.accepted 2) (.inl rfl) (by decide) (by decide)
    (by decide) fun _ _ => List.not_mem_nil)
  have h := h.step (.complete 64#64 10 (by decide +kernel)
    (fun _ _ hlinked => absurd hlinked.2 (by decide +kernel)) (by decide +kernel))
  have h := h.step (.complete 128#64 0 (by decide +kernel) (fun a ha hlinked => by
    obtain rfl := List.mem_singleton.mp (show a ∈ [128#64] from ha)
    exact absurd hlinked.1 (by decide +kernel)) (by decide +kernel))
  have h := ((h.step (.loop none)).step (.loop none)).step (.loop none)
  have h := ((h.step (.loop none)).step (.loop none)).step (.loop none)
  have h := (h.step (.loop none)).step (.loop none)
  exact ⟨_, h, by decide +kernel, by decide +kernel⟩

end UringExecutor

/-- The executor is sound if and only if `io_uring_enter` does not fail once entries are in the
ring; it may take any number of them.  When it does fail, there is a run in which a write has
returned `Ok` while both of its entries are in the ring. -/
theorem executor_sound_iff (failures : Bool) :
    ((∀ (host : Host) (s : UringExecutor), Reachable (executor host failures) s → s.Sound) ↔
      failures = false) ∧
    ∃ s, Reachable (executor .sample true) s ∧
      s.completions.resumed = [(2, some (.status .Ok))] ∧ s.owners = [2, 2] := by
  refine ⟨⟨fun h => ?_, ?_⟩, UringExecutor.exists_resumed_early⟩
  · by_contra hfailures
    rw [Bool.not_eq_false] at hfailures
    subst hfailures
    obtain ⟨s, hs, hresumed, howners⟩ := UringExecutor.exists_resumed_early
    exact (h .sample s hs).own (2, some (.status .Ok)) (by simp [hresumed]) (by simp [howners])
  · rintro rfl host s hs
    exact (UringExecutor.simulated_of_reachable hs).sound

/-! ### Nobody else submits -/

namespace UringExecutor

variable {host : Host}

/-- A step in which nothing is submitted: the kernel and the loop are alone. -/
def Alone (host : Host) (s t : UringExecutor) : Prop :=
  Step host false s t ∧ t.submission = s.submission

theorem Alone.owners {s t : UringExecutor} (h : Alone host s t) : t.owners = s.owners := by
  obtain ⟨hstep, hsubmission⟩ := h
  cases hstep with
  | suspend c first second result =>
    have hcall : (s.submission.call host (c.awaiter.request first second) result).2 =
      s.submission := hsubmission
    simp [suspend, hcall]
  | complete => rfl
  | loop => rfl

def looped (host : Host) (n : Nat) (s : UringExecutor) : UringExecutor :=
  { s with completions := s.completions.looped host n }

theorem looped_succ (n : Nat) (s : UringExecutor) : s.looped host (n + 1) =
    { s.looped host n with completions := (s.looped host n).completions.loop host none } := by
  simp only [looped, Completions.looped, Function.iterate_succ_apply']

theorem alone_looped (s : UringExecutor) (n : Nat) :
    Relation.ReflTransGen (Alone host) s (s.looped host n) := by
  induction n with
  | zero => exact .refl
  | succ n ih =>
    rw [looped_succ]
    exact ih.tail ⟨.loop none, rfl⟩

theorem looped_frame (s : UringExecutor) (n : Nat) :
    (s.looped host n).completions.outstanding = s.completions.outstanding ∧
      (s.looped host n).completions.submitted = s.completions.submitted := by
  induction n with
  | zero => exact ⟨rfl, rfl⟩
  | succ n ih =>
    obtain ⟨-, -, hsubmitted, houtstanding⟩ :=
      Completions.loop_frame host none (s.looped host n).completions
    rw [looped_succ]
    exact ⟨houtstanding.trans ih.1, hsubmitted.trans ih.2⟩

theorem Simulated.looped {s : UringExecutor} (h : s.Simulated host) (n : Nat) :
    (s.looped host n).Simulated host := by
  induction n with
  | zero => exact h
  | succ n ih =>
    rw [looped_succ]
    exact ih.loop none

theorem completionSide_looped (s : UringExecutor) (n : Nat) :
    (s.looped host n).completionSide = s.completionSide.looped host n := by
  induction n with
  | zero => rfl
  | succ n ih =>
    rw [looped_succ, completionSide_loop, ih, Completions.looped, Completions.looped,
      Function.iterate_succ_apply']

/-- The completions that are posted are delivered, and the loop is about to look at the empty
ring. -/
structure Drained (s : UringExecutor) : Prop where
  phase : s.completions.phase = .draining
  contents : s.completions.ring.contents = []

theorem Simulated.exists_drained {s : UringExecutor} (h : s.Simulated host) :
    ∃ n, (s.looped host n).Drained := by
  obtain ⟨n, hdraining⟩ := h.invariant.exists_draining
  rw [← completionSide_looped] at hdraining
  obtain ⟨m, hphase, hcontents⟩ :=
    (h.looped n).invariant.exists_drained (h.looped n).running hdraining
  have hadd : ((s.looped host n).completionSide).looped host m =
      (s.looped host (m + n)).completionSide := by
    rw [completionSide_looped, completionSide_looped]
    exact (Function.iterate_add_apply _ _ _ _).symm
  rw [hadd] at hphase hcontents
  exact ⟨m + n, hphase, hcontents⟩

/-- The kernel may complete the first of its operations. -/
theorem Simulated.alone_complete {s : UringExecutor} (h : s.Simulated host) (hdrained : s.Drained)
    {address : BitVec 64} {later : List (BitVec 64)}
    (hout : s.completions.outstanding = address :: later) :
    Alone host s { s with completions := s.completions.complete address 0 } := by
  refine ⟨.complete address 0 (by simp [hout]) ?_ ?_, rfl⟩
  · have houtstanding := (List.pairwise_append.mp h.invariant.order).2.1
    have hlater := (List.pairwise_append.mp houtstanding).1
    rw [hout, List.pairwise_cons] at hlater
    rw [hout]
    intro a ha hlinked
    rcases List.mem_cons.mp ha with rfl | ha
    · obtain ⟨hwrite, hsync⟩ := hlinked
      rw [hwrite] at hsync
      contradiction
    · exact hlater.1 a ha hlinked
  · obtain ⟨k, -, hentries, -⟩ := h.invariant.ring.sized
    have hentries' : s.completions.ring.entries.toNat = 2 ^ k := hentries
    rw [← Ring.length_contents, hdrained.contents, hentries']
    exact Nat.two_pow_pos k

/-- The kernel and the loop finish with all entries that the kernel has taken. -/
theorem Simulated.exists_served {s : UringExecutor} (h : s.Simulated host) :
    ∃ t, Relation.ReflTransGen (Alone host) s t ∧ t.Simulated host ∧ t.Drained ∧
      t.completions.outstanding = [] ∧ t.completions.submitted = s.completions.submitted := by
  induction hlen : s.completions.outstanding.length generalizing s with
  | zero =>
    obtain ⟨n, hdrained⟩ := h.exists_drained
    obtain ⟨houtstanding, hsubmitted⟩ := @looped_frame host s n
    refine ⟨s.looped host n, alone_looped s n, h.looped n, hdrained, ?_, hsubmitted⟩
    rw [houtstanding]
    exact List.length_eq_zero_iff.mp hlen
  | succ k ih =>
    obtain ⟨n, hdrained⟩ := h.exists_drained
    obtain ⟨houtstanding, hsubmitted⟩ := @looped_frame host s n
    obtain ⟨address, later, hout⟩ := List.exists_cons_of_length_eq_add_one hlen
    have hcomplete := (h.looped n).alone_complete hdrained (houtstanding.trans hout)
    have hnext := simulated_step (h.looped n) hcomplete.1
    have hlater : ((s.looped host n).completions.complete address 0).outstanding.length = k := by
      simp [Completions.complete, houtstanding, hout, Nat.succ.inj (hout ▸ hlen)]
    obtain ⟨t, hrun, ht, htd, hempty, hsame⟩ := ih hnext hlater
    exact ⟨t, ((alone_looped s n).tail hcomplete).trans hrun, ht, htd, hempty,
      hsame.trans hsubmitted⟩

theorem Simulated.alone {s t : UringExecutor} (h : s.Simulated host)
    (hrun : Relation.ReflTransGen (Alone host) s t) : t.Simulated host ∧ t.owners = s.owners := by
  induction hrun with
  | refl => exact ⟨h, rfl⟩
  | tail _ hst ih => exact ⟨simulated_step ih.1 hst.1, hst.owners.trans ih.2⟩

/-- Whoever is still suspended when the kernel has nothing to do has an entry in the ring. -/
theorem Simulated.owner_of_suspended {s : UringExecutor} (h : s.Simulated host)
    (hdrained : s.Drained) (hempty : s.completions.outstanding = []) {c : Coroutine}
    (hc : c ∈ s.completions.suspended) : c.id ∈ s.owners := by
  have hphase : s.completionSide.phase = .draining := hdrained.phase
  have hcontents : s.completionSide.ring.contents = [] := hdrained.contents
  have hwaits := (h.invariant.waits c hc).resolve_right (by simp [hphase])
  have hundelivered : s.completionSide.undelivered = [] := by
    simp [Completions.undelivered, hphase, hcontents]
  rw [Completions.inflight, hundelivered] at hwaits
  have hentry : c.carrier.1 ∈ s.operations := hwaits
  rw [operations, hempty, List.nil_append, List.mem_map] at hentry
  obtain ⟨sqe, hsqe, haddress⟩ := hentry
  rw [h.owners, List.mem_map]
  refine ⟨sqe, hsqe, ?_⟩
  have htag : s.completions.tag c.carrier.1 = c.carrier.2 :=
    (h.invariant.frames c hc _ c.carrier_mem).1
  rw [haddress, htag]
  exact Coroutine.owner_eq c.carrier_mem

end UringExecutor

/-- A coroutine can be resumed without further submissions if and only if the kernel has taken all
of its entries.  A call of which the kernel takes less succeeds all the same. -/
theorem executor_answers_iff (host : Host) {s : UringExecutor}
    (hs : Reachable (executor host false) s) {c : Coroutine} (hc : c ∈ s.completions.suspended) :
    (∃ t, Relation.ReflTransGen (UringExecutor.Alone host) s t ∧
      c.id ∈ t.completions.resumed.map Prod.fst) ↔ c.id ∉ s.owners := by
  have h := UringExecutor.simulated_of_reachable hs
  constructor
  · rintro ⟨t, hrun, hresumed⟩
    obtain ⟨ht, howners⟩ := h.alone hrun
    obtain ⟨r, hr, hid⟩ := List.mem_map.mp hresumed
    rw [← hid, ← howners]
    exact ht.sound.own r hr
  · intro howner
    obtain ⟨t, hrun, ht, hdrained, hempty, hsubmitted⟩ := h.exists_served
    rw [← (h.alone hrun).2] at howner
    have hmember : c ∈ t.completions.submitted := hsubmitted ▸ h.invariant.member c hc
    have hid := ht.invariant.account.mem_iff.mpr (List.mem_map_of_mem hmember)
    refine ⟨t, hrun, (List.mem_append.mp hid).resolve_left fun hsuspended => howner ?_⟩
    obtain ⟨d, hd, hid⟩ := List.mem_map.mp hsuspended
    exact hid ▸ ht.owner_of_suspended hdrained hempty hd

/-- The kernel takes the write and leaves the sync, and the call reports success. -/
theorem executor_answers_short : ∃ s, Reachable (executor .sample false) s ∧
    s.completions.suspended = [⟨1, .linked 64#64 128#64 10⟩] ∧
      ¬∃ t, Relation.ReflTransGen (UringExecutor.Alone .sample) s t ∧
        1 ∈ t.completions.resumed.map Prod.fst := by
  have h := (UringExecutor.reachable_sample false).step (.suspend ⟨1, .linked 64#64 128#64 10⟩
    { opcode := .writev } { opcode := .fsync } (.accepted 1) (.inr rfl) (by decide) (by decide)
    (by decide) fun _ _ => List.not_mem_nil)
  refine ⟨_, h, by decide +kernel, ?_⟩
  rw [executor_answers_iff .sample h (c := ⟨1, .linked 64#64 128#64 10⟩) (by decide +kernel)]
  decide +kernel

end StorageEngine.Io
