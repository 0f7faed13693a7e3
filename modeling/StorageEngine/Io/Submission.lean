import StorageEngine.Common
import StorageEngine.Lib.CountedRing

/-! The submission side of `uring_executor.cc`: the ring of submission entries, `submitRaw` and
`submitLinked`, which publish entries under a mutex and then call `io_uring_enter`, and sequences of
such calls with any answers of the kernel. -/

namespace StorageEngine.Io

open CountedRing (Ring)

inductive Opcode where
  | nop
  | readv
  | writev
  | fsync
  deriving DecidableEq

/-- The fields of `io_uring_sqe` that the executor sets. -/
structure Sqe where
  opcode : Opcode := .nop
  flags : BitVec 8 := 0#8
  fd : Int := 0
  off : BitVec 64 := 0#64
  addr : BitVec 64 := 0#64
  len : BitVec 32 := 0#32
  fsyncFlags : BitVec 32 := 0#32
  userData : BitVec 64 := 0#64
  deriving DecidableEq

def ioSqeIoLink : BitVec 8 := 4#8

def ioRingSqNeedWakeup : BitVec 32 := 1#32

structure SubmissionRing where
  head : BitVec 32
  tail : BitVec 32
  ringMask : BitVec 32
  ringEntries : BitVec 32
  flags : BitVec 32 := 0#32
  array : BitVec 32 → BitVec 32

structure State where
  ringFd : Int := 0
  sq : SubmissionRing
  sqes : BitVec 32 → Sqe
  sqPollEnabled : Bool := false

/-- What `io_uring_enter` returns: an error number, or how many entries it took. -/
inductive EnterResult where
  | error (errno : Int)
  | accepted (count : Nat)
  deriving DecidableEq

namespace EnterResult

def succeeded : EnterResult → Bool
  | .error _ => false
  | .accepted _ => true

/-- The kernel takes at most as many entries as it is asked to. -/
def taken (toSubmit : Nat) : EnterResult → Nat
  | .error _ => 0
  | .accepted count => min count toSubmit

def acceptsAll (toSubmit : Nat) : EnterResult → Bool
  | .error _ => false
  | .accepted count => toSubmit ≤ count

theorem taken_le (result : EnterResult) (toSubmit : Nat) : result.taken toSubmit ≤ toSubmit := by
  cases result with
  | error _ => exact Nat.zero_le _
  | accepted count => exact Nat.min_le_right _ _

end EnterResult

namespace State

/-- The kernel takes entries from the head. -/
def enter (state : State) (toSubmit : Nat) (result : EnterResult) : State :=
  { state with sq.head := state.sq.head + BitVec.ofNat 32 (result.taken toSubmit) }

def wakeSqPollIfNeeded (host : Host) (state : State) (result : EnterResult) : Status :=
  if !state.sqPollEnabled then .Ok
  else if state.sq.flags &&& ioRingSqNeedWakeup = 0#32 then .Ok
  else
    match result with
    | .error errno => .ioError (errnoMessage host "io_uring_enter sqpoll wakeup" errno)
    | .accepted _ => .Ok

def submitRaw (host : Host) (state : State) (source : Sqe) (userData : BitVec 64)
    (result : EnterResult) : Status × State :=
  let tail := state.sq.tail
  let head := state.sq.head
  let entries := state.sq.ringEntries
  if tail - head ≥ entries then
    (.ioError "io_uring submission queue is full", state)
  else
    let index := tail &&& state.sq.ringMask
    let state := { state with
      sqes := Function.update state.sqes index { source with userData }
      sq.array := Function.update state.sq.array index index
      sq.tail := tail + 1#32 }
    if state.sqPollEnabled then
      (state.wakeSqPollIfNeeded host result, state)
    else
      match result with
      | .error errno =>
        (.ioError (errnoMessage host "io_uring_enter submit" errno), state.enter 1 result)
      | .accepted _ => (.Ok, state.enter 1 result)

/-- The operation is at `address`. -/
def submit (host : Host) (state : State) (operation : Sqe) (address : BitVec 64)
    (result : EnterResult) : Status × State :=
  if state.ringFd < 0 then
    (.ioError "io_uring executor is closed", state)
  else
    state.submitRaw host operation address result

def submitLinked (host : Host) (state : State) (first : Sqe) (firstAddress : BitVec 64)
    (second : Sqe) (secondAddress : BitVec 64) (result : EnterResult) : Status × State :=
  if state.ringFd < 0 then
    (.ioError "io_uring executor is closed", state)
  else
    let tail := state.sq.tail
    let head := state.sq.head
    let entries := state.sq.ringEntries
    if tail - head + 2#32 > entries then
      (.ioError "io_uring submission queue is full", state)
    else
      let firstIndex := tail &&& state.sq.ringMask
      let secondIndex := (tail + 1#32) &&& state.sq.ringMask
      let first := { first with flags := first.flags ||| ioSqeIoLink, userData := firstAddress }
      let second := { second with userData := secondAddress }
      let sqes := Function.update state.sqes firstIndex first
      let array := Function.update state.sq.array firstIndex firstIndex
      let state := { state with
        sqes := Function.update sqes secondIndex second
        sq.array := Function.update array secondIndex secondIndex
        sq.tail := tail + 2#32 }
      if state.sqPollEnabled then
        (state.wakeSqPollIfNeeded host result, state)
      else
        match result with
        | .error errno =>
          (.ioError (errnoMessage host "io_uring_enter submit linked" errno), state.enter 2 result)
        | .accepted _ => (.Ok, state.enter 2 result)

/-! ### The queue in the ring -/

/-- The entries as the kernel reads them, through the index array. -/
def ring (state : State) : Ring 32 Sqe where
  head := state.sq.head
  tail := state.sq.tail
  mask := state.sq.ringMask
  entries := state.sq.ringEntries
  slots index := state.sqes (state.sq.array index)

/-- The ring holds a queue, and the index array leads each place of it to its own entry. -/
structure Valid (state : State) : Prop where
  ring : state.ring.WellFormed
  indexed : ∀ i < state.ring.count,
    state.sq.array (state.ring.slotAt i) = state.ring.slotAt i

theorem Valid.sized {state : State} (h : state.Valid) :
    ∃ k < 32, state.sq.ringEntries.toNat = 2 ^ k := by
  obtain ⟨k, hk, hentries, -⟩ := h.ring.sized
  exact ⟨k, hk, hentries⟩

/-- One entry at the tail. -/
def push (state : State) (sqe : Sqe) : State :=
  let index := state.sq.tail &&& state.sq.ringMask
  { state with
    sqes := Function.update state.sqes index sqe
    sq.array := Function.update state.sq.array index index
    sq.tail := state.sq.tail + 1#32 }

theorem push_spec {state : State} (h : state.Valid)
    (hroom : state.ring.count < state.sq.ringEntries.toNat) (sqe : Sqe) :
    (state.push sqe).Valid ∧ (state.push sqe).ring.count = state.ring.count + 1 ∧
      (state.push sqe).ring.contents = state.ring.contents ++ [sqe] := by
  have hne : ∀ i < state.ring.count, state.ring.slotAt i ≠ state.sq.tail &&& state.sq.ringMask :=
    fun i hi => CountedRing.slotAt_ne_tail h.ring hroom hi
  have hold : ∀ i < state.ring.count,
      (state.push sqe).ring.slots (state.ring.slotAt i) =
        state.ring.slots (state.ring.slotAt i) := by
    intro i hi
    have hindex := h.indexed i hi
    simp only [ring, push] at hindex hne ⊢
    rw [Function.update_of_ne (hne i hi), hindex, Function.update_of_ne (hne i hi)]
  obtain ⟨hring, hcount, hcontents⟩ :=
    CountedRing.contents_of_push (q := (state.push sqe).ring) h.ring hroom rfl rfl rfl rfl hold
  refine ⟨⟨hring, fun i hi => ?_⟩, hcount, ?_⟩
  · have hslot : (state.push sqe).ring.slotAt i = state.ring.slotAt i := rfl
    rw [hslot]
    rcases Nat.lt_or_ge i state.ring.count with hlt | hge
    · simp only [push]
      rw [Function.update_of_ne (hne i hlt), h.indexed i hlt]
    · obtain rfl : i = state.ring.count := by omega
      rw [state.ring.slotAt_count]
      simp [push, ring]
  · rw [hcontents]
    simp [push, ring]

def pushAll (state : State) (sqes : List Sqe) : State := sqes.foldl push state

theorem pushAll_spec {state : State} (h : state.Valid) (sqes : List Sqe)
    (hroom : state.ring.count + sqes.length ≤ state.sq.ringEntries.toNat) :
    (state.pushAll sqes).Valid ∧
      (state.pushAll sqes).ring.contents = state.ring.contents ++ sqes := by
  induction sqes generalizing state with
  | nil => exact ⟨h, (List.append_nil _).symm⟩
  | cons sqe sqes ih =>
    rw [List.length_cons] at hroom
    obtain ⟨hvalid, hcount, hcontents⟩ := push_spec h (by omega) sqe
    have hsize : (state.push sqe).sq.ringEntries = state.sq.ringEntries := rfl
    obtain ⟨hvalid', hcontents'⟩ := ih hvalid (by rw [hcount, hsize]; omega)
    rw [hcontents, List.append_assoc] at hcontents'
    exact ⟨hvalid', hcontents'⟩

/-- Of the ring, publishing changes the tail and what lies behind it. -/
theorem pushAll_frame (state : State) (sqes : List Sqe) :
    (state.pushAll sqes).sq.tail = state.sq.tail + BitVec.ofNat 32 sqes.length ∧
      (state.pushAll sqes).sq.head = state.sq.head ∧
      (state.pushAll sqes).sq.ringEntries = state.sq.ringEntries ∧
      (state.pushAll sqes).ringFd = state.ringFd ∧
      (state.pushAll sqes).sqPollEnabled = state.sqPollEnabled := by
  induction sqes generalizing state with
  | nil => simp [pushAll]
  | cons sqe sqes ih =>
    obtain ⟨htail, hframe⟩ := ih (state.push sqe)
    refine ⟨htail.trans ?_, hframe⟩
    rw [List.length_cons, Nat.add_comm, BitVec.ofNat_add, ← BitVec.add_assoc]
    rfl

theorem enter_spec {state : State} (h : state.Valid) {toSubmit : Nat}
    (hn : toSubmit ≤ state.ring.count) (result : EnterResult) :
    (state.enter toSubmit result).Valid ∧
      (state.enter toSubmit result).ring.contents =
        state.ring.contents.drop (result.taken toSubmit) := by
  obtain ⟨hring, hcount, hcontents⟩ :=
    CountedRing.contents_of_advance (q := (state.enter toSubmit result).ring) h.ring
      ((result.taken_le toSubmit).trans hn) rfl rfl rfl rfl rfl
  refine ⟨⟨hring, fun i hi => ?_⟩, hcontents⟩
  have hslot : (state.enter toSubmit result).ring.slotAt i =
      state.ring.slotAt (result.taken toSubmit + i) := by
    simp only [Ring.slotAt, ring, enter, BitVec.ofNat_add, BitVec.add_assoc]
  rw [hslot]
  exact h.indexed _ (by omega)

end State

/-! ### Calls -/

inductive Request where
  | raw (source : Sqe) (userData : BitVec 64)
  | single (operation : Sqe) (address : BitVec 64)
  | linked (first : Sqe) (firstAddress : BitVec 64) (second : Sqe) (secondAddress : BitVec 64)

namespace Request

def run (host : Host) (state : State) (result : EnterResult) : Request → Status × State
  | .raw source userData => state.submitRaw host source userData result
  | .single operation address => state.submit host operation address result
  | .linked first firstAddress second secondAddress =>
    state.submitLinked host first firstAddress second secondAddress result

/-- The entries that a call puts into the ring. -/
def sqes : Request → List Sqe
  | .raw source userData => [{ source with userData }]
  | .single operation address => [{ operation with userData := address }]
  | .linked first firstAddress second secondAddress =>
    [{ first with flags := first.flags ||| ioSqeIoLink, userData := firstAddress },
      { second with userData := secondAddress }]

theorem sqes_ne_nil (request : Request) : request.sqes ≠ [] := by cases request <;> simp [sqes]

end Request

/-- An open ring that is not polled by the kernel. -/
structure State.Open (state : State) : Prop where
  ringFd : 0 ≤ state.ringFd
  sqPollEnabled : state.sqPollEnabled = false

namespace Request

/-- `submitRaw`, which `closeRing` calls too, does not look at the descriptor. -/
def closed (state : State) : Request → Bool
  | .raw _ _ => false
  | .single _ _ => state.ringFd < 0
  | .linked _ _ _ _ => state.ringFd < 0

/-- The check that a call makes of the counters it has loaded. -/
def full (tail head entries : BitVec 32) : Request → Bool
  | .raw _ _ => tail - head ≥ entries
  | .single _ _ => tail - head ≥ entries
  | .linked _ _ _ _ => tail - head + 2#32 > entries

/-- The answer of a call that has entered the kernel. -/
def answer (host : Host) (request : Request) : EnterResult → Status
  | .error errno =>
    match request with
    | .linked _ _ _ _ => .ioError (errnoMessage host "io_uring_enter submit linked" errno)
    | _ => .ioError (errnoMessage host "io_uring_enter submit" errno)
  | .accepted _ => .Ok

theorem ok_answer (host : Host) (request : Request) (result : EnterResult) :
    (request.answer host result).ok = result.succeeded := by
  cases result with
  | error errno => cases request <;> rfl
  | accepted count => rfl

/-- The checks of the counters find slots for all entries of a call.  The sum in the check of
`submitLinked` does not wrap, since a ring has at most `2 ^ 31` entries. -/
theorem full_iff {tail head entries : BitVec 32} (hsized : ∃ k < 32, entries.toNat = 2 ^ k)
    (hroom : (tail - head).toNat ≤ entries.toNat) (request : Request) :
    request.full tail head entries = true ↔
      ¬(tail - head).toNat + request.sqes.length ≤ entries.toNat := by
  have hone : tail - head ≥ entries ↔ ¬(tail - head).toNat + 1 ≤ entries.toNat := by
    rw [ge_iff_le, BitVec.le_def]
    omega
  have htwo : tail - head + 2#32 > entries ↔ ¬(tail - head).toNat + 2 ≤ entries.toNat := by
    obtain ⟨k, hk, hentries⟩ := hsized
    have hpow : 2 ^ k ≤ 2 ^ 31 := Nat.pow_le_pow_right (by decide) (by omega)
    rw [gt_iff_lt, BitVec.lt_def, BitVec.toNat_add, BitVec.toNat_ofNat,
      Nat.mod_eq_of_lt (show 2 < 2 ^ 32 by decide), Nat.mod_eq_of_lt (by omega)]
    omega
  cases request with
  | raw source userData => exact decide_eq_true_iff.trans hone
  | single operation address => exact decide_eq_true_iff.trans hone
  | linked first firstAddress second secondAddress => exact decide_eq_true_iff.trans htwo

theorem full_iff_count {state : State} (h : state.Valid) (request : Request) :
    request.full state.sq.tail state.sq.head state.sq.ringEntries = true ↔
      ¬state.ring.count + request.sqes.length ≤ state.sq.ringEntries.toNat :=
  request.full_iff h.sized h.ring.room

theorem add_two (tail : BitVec 32) : tail + 2#32 = tail + 1#32 + 1#32 := by
  rw [BitVec.add_assoc]
  rfl

theorem submitRaw_eq (host : Host) (state : State) (result : EnterResult) (source : Sqe)
    (userData : BitVec 64) :
    state.submitRaw host source userData result =
      if state.sq.tail - state.sq.head ≥ state.sq.ringEntries then
        (.ioError "io_uring submission queue is full", state)
      else
        let published := state.push { source with userData }
        if state.sqPollEnabled then (published.wakeSqPollIfNeeded host result, published)
        else ((raw source userData).answer host result, published.enter 1 result) := by
  unfold State.submitRaw
  dsimp only
  split
  · rfl
  · split
    · rfl
    · cases result <;> rfl

/-- A call that is not refused publishes its entries, and then the kernel answers, unless it polls
the ring itself. -/
theorem run_eq (host : Host) (state : State) (result : EnterResult) (request : Request) :
    request.run host state result =
      if request.closed state then (.ioError "io_uring executor is closed", state)
      else if request.full state.sq.tail state.sq.head state.sq.ringEntries then
        (.ioError "io_uring submission queue is full", state)
      else
        let published := state.pushAll request.sqes
        if state.sqPollEnabled then (published.wakeSqPollIfNeeded host result, published)
        else (request.answer host result, published.enter request.sqes.length result) := by
  cases request with
  | raw source userData =>
    simp only [closed, full, Bool.false_eq_true, if_false, decide_eq_true_eq]
    exact submitRaw_eq host state result source userData
  | single operation address =>
    simp only [run, State.submit, closed, full, decide_eq_true_eq]
    split
    · rfl
    · exact submitRaw_eq host state result operation address
  | linked first firstAddress second secondAddress =>
    simp only [run, State.submitLinked, closed, full, decide_eq_true_eq, add_two]
    split
    · rfl
    · split
      · rfl
      · split
        · rfl
        · cases result <;> rfl

/-- On an open ring that is not polled, a call that finds room publishes its entries, and then the
kernel answers; a call that finds none changes nothing. -/
theorem run_spec {state : State} (hvalid : state.Valid) (h : state.Open) (host : Host)
    (request : Request) (result : EnterResult) :
    ∃ status : Status, status.ok = result.succeeded ∧ request.run host state result =
      if state.ring.count + request.sqes.length ≤ state.sq.ringEntries.toNat then
        (status, (state.pushAll request.sqes).enter request.sqes.length result)
      else (.ioError "io_uring submission queue is full", state) := by
  have hclosed : ¬request.closed state = true := by
    have hfd : ¬state.ringFd < 0 := not_lt_of_ge h.ringFd
    cases request <;> simp [closed, hfd]
  refine ⟨request.answer host result, request.ok_answer host result, ?_⟩
  rw [run_eq, if_neg hclosed]
  by_cases hroom : state.ring.count + request.sqes.length ≤ state.sq.ringEntries.toNat
  · rw [if_neg (mt (full_iff_count hvalid request).mp (not_not.mpr hroom)), if_pos hroom]
    exact if_neg (by simp [h.sqPollEnabled])
  · rw [if_pos ((full_iff_count hvalid request).mpr hroom), if_neg hroom]

end Request

/-! ### Sequences of calls -/

/-- The ring with everything that was ever published in it and everything the kernel took, both in
order. -/
structure Submission where
  state : State
  published : List Sqe := []
  consumed : List Sqe := []

namespace Submission

/-- One call: what it publishes is seen at the tail, and what the kernel takes at the head, where
the kernel reads the entries between the old head and the new one. -/
def call (host : Host) (s : Submission) (request : Request) (result : EnterResult) :
    Status × Submission :=
  let (status, state) := request.run host s.state result
  let before := s.state.sq
  (status, {
    state
    published := s.published ++ request.sqes.take (state.sq.tail - before.tail).toNat
    consumed := s.consumed ++
      ({ state.ring with head := before.head }).contents.take (state.sq.head - before.head).toNat })

/-- A call that fails leaves none of the entries it published in the ring, and one that succeeds
has all of its own entries taken; entries are told apart by their place among all that were
published. -/
def Atomic (host : Host) (s : Submission) (request : Request) (result : EnterResult) : Prop :=
  let (status, after) := s.call host request result
  (status.ok = false →
    after.published.drop (max s.published.length after.consumed.length) = []) ∧
  (status.ok = true → after.consumed.drop s.published.length = request.sqes)

def AllAtomic (host : Host) : Submission → List (Request × EnterResult) → Prop
  | _, [] => True
  | s, (request, result) :: calls =>
    Atomic host s request result ∧ AllAtomic host (s.call host request result).2 calls

structure Valid (s : Submission) : Prop where
  state : s.state.Valid
  isOpen : s.state.Open
  pending : s.published = s.consumed ++ s.state.ring.contents

theorem call_full {s : Submission} (h : s.Valid) (host : Host) {request : Request}
    (result : EnterResult)
    (hfull : ¬s.state.ring.count + request.sqes.length ≤ s.state.sq.ringEntries.toNat) :
    s.call host request result = (.ioError "io_uring submission queue is full", s) := by
  obtain ⟨status, -, hrun⟩ := request.run_spec h.state h.isOpen host result
  rw [if_neg hfull] at hrun
  simp [call, hrun]

theorem call_fits {s : Submission} (h : s.Valid) (host : Host) {request : Request}
    (result : EnterResult)
    (hroom : s.state.ring.count + request.sqes.length ≤ s.state.sq.ringEntries.toNat) :
    ∃ status after, s.call host request result = (status, after) ∧ status.ok = result.succeeded ∧
      after.Valid ∧ after.published = s.published ++ request.sqes ∧
      after.consumed.length = s.consumed.length + result.taken request.sqes.length ∧
      after.state.sq.ringEntries = s.state.sq.ringEntries := by
  obtain ⟨status, hok, hrun⟩ := request.run_spec h.state h.isOpen host result
  obtain ⟨hvalid, hcontents⟩ := State.pushAll_spec h.state request.sqes hroom
  obtain ⟨htail, hhead, hentries, hfd, hpoll⟩ := s.state.pushAll_frame request.sqes
  have hcount : request.sqes.length ≤ (s.state.pushAll request.sqes).ring.count := by
    rw [← Ring.length_contents, hcontents, List.length_append]
    omega
  obtain ⟨hvalid', hcontents'⟩ := State.enter_spec hvalid hcount result
  have hlt := s.state.sq.ringEntries.isLt
  have htaken := result.taken_le request.sqes.length
  rw [if_pos hroom] at hrun
  have hpublished : (((s.state.pushAll request.sqes).enter request.sqes.length result).sq.tail -
      s.state.sq.tail).toNat = request.sqes.length := by
    rw [State.enter, htail, add_sub_cancel_left, BitVec.toNat_ofNat, Nat.mod_eq_of_lt (by omega)]
  have hconsumed : (((s.state.pushAll request.sqes).enter request.sqes.length result).sq.head -
      s.state.sq.head).toNat = result.taken request.sqes.length := by
    rw [State.enter, hhead, add_sub_cancel_left, BitVec.toNat_ofNat, Nat.mod_eq_of_lt (by omega)]
  have hread : ({ ((s.state.pushAll request.sqes).enter request.sqes.length result).ring with
      head := s.state.sq.head } : Ring 32 Sqe).contents =
        s.state.ring.contents ++ request.sqes := by
    rw [← hcontents, ← hhead]
    rfl
  refine ⟨status, _, by rw [call, hrun], hok, ⟨hvalid', ?_, ?_⟩, ?_, ?_, hentries⟩
  · exact ⟨hfd ▸ h.isOpen.ringFd, hpoll.trans h.isOpen.sqPollEnabled⟩
  · simp only [hpublished, hconsumed, hread, hcontents', hcontents, h.pending, List.append_assoc,
      List.take_length, List.take_append_drop]
  · simp only [hpublished, List.take_length]
  · rw [List.length_append, hconsumed, hread, List.length_take, List.length_append,
      Nat.min_eq_left (by omega)]

/-- A call with room is atomic when the kernel takes all there is to take. -/
theorem atomic_iff {s : Submission} (h : s.Valid) (host : Host) (request : Request)
    (result : EnterResult)
    (hroom : s.state.ring.count + request.sqes.length ≤ s.state.sq.ringEntries.toNat) :
    Atomic host s request result ↔
      s.state.ring.count = 0 ∧ result.acceptsAll request.sqes.length = true := by
  obtain ⟨status, after, hcall, hok, hafter, hpublished, hconsumed, -⟩ :=
    call_fits h host result hroom
  have hpos : 0 < request.sqes.length := List.length_pos_of_ne_nil request.sqes_ne_nil
  have hpending : s.published.length = s.consumed.length + s.state.ring.count := by
    rw [h.pending, List.length_append, Ring.length_contents]
  cases result with
  | error errno =>
    -- Nothing was taken, so the entries of the call are all there.
    simp only [Atomic, hcall, hok, EnterResult.succeeded, EnterResult.acceptsAll]
    simp only [EnterResult.taken] at hconsumed
    rw [hpublished, hconsumed, Nat.add_zero, Nat.max_eq_left (by omega), List.drop_left]
    simp [request.sqes_ne_nil]
  | accepted count =>
    -- What was taken ends in a front part of the call's own entries.
    have htaken : after.consumed.drop s.published.length =
        request.sqes.take (min count request.sqes.length - s.state.ring.count) := by
      have hfront : after.consumed = (s.published ++ request.sqes).take after.consumed.length := by
        rw [← hpublished, hafter.pending, List.take_left]
      rw [hfront, hconsumed, EnterResult.taken, List.drop_take, List.drop_left, hpending,
        Nat.add_sub_add_left]
    simp only [Atomic, hcall, hok, EnterResult.succeeded, EnterResult.acceptsAll, htaken,
      List.take_eq_self_iff]
    simp
    omega

theorem atomic_of_full {s : Submission} (h : s.Valid) (host : Host) {request : Request}
    (result : EnterResult)
    (hfull : ¬s.state.ring.count + request.sqes.length ≤ s.state.sq.ringEntries.toNat) :
    Atomic host s request result := by
  simp [Atomic, call_full h host result hfull]

/-- Calls on an empty ring are all atomic when the kernel takes every entry of each call that fits
into the ring, and in no other case. -/
theorem allAtomic_iff {s : Submission} (h : s.Valid) (hempty : s.state.ring.count = 0)
    (host : Host) (calls : List (Request × EnterResult)) :
    AllAtomic host s calls ↔
      ∀ c ∈ calls, c.1.sqes.length ≤ s.state.sq.ringEntries.toNat →
        c.2.acceptsAll c.1.sqes.length = true := by
  induction calls generalizing s with
  | nil => simp [AllAtomic]
  | cons head calls ih =>
    obtain ⟨request, result⟩ := head
    simp only [AllAtomic, List.forall_mem_cons]
    by_cases hroom : request.sqes.length ≤ s.state.sq.ringEntries.toNat
    · have hroom' : s.state.ring.count + request.sqes.length ≤ s.state.sq.ringEntries.toNat := by
        omega
      obtain ⟨status, after, hcall, -, hafter, hpublished, hconsumed, hentries⟩ :=
        call_fits h host result hroom'
      rw [atomic_iff h host request result hroom', hcall]
      simp only [hempty, hroom, true_and, forall_const]
      -- When everything is taken the ring is empty again.
      refine and_congr_right fun haccepts => ?_
      have hempty' : after.state.ring.count = 0 := by
        have htaken : result.taken request.sqes.length = request.sqes.length := by
          cases result with
          | error _ => simp [EnterResult.acceptsAll] at haccepts
          | accepted count => exact Nat.min_eq_right (of_decide_eq_true haccepts)
        have hlen := congrArg List.length hafter.pending
        have hlen' := congrArg List.length h.pending
        rw [hpublished, List.length_append, List.length_append, Ring.length_contents] at hlen
        rw [List.length_append, Ring.length_contents] at hlen'
        omega
      rw [ih hafter hempty', hentries]
    · have hfull : ¬s.state.ring.count + request.sqes.length ≤ s.state.sq.ringEntries.toNat := by
        omega
      rw [call_full h host result hfull, ih h hempty]
      simp [atomic_of_full h host result hfull, hroom]

end Submission

/-- The ring as `io_uring_setup` gives it, whatever value its counters start at. -/
structure State.Fresh (state : State) : Prop where
  isOpen : state.Open
  empty : state.sq.head = state.sq.tail
  sized : ∃ k < 32, state.sq.ringEntries.toNat = 2 ^ k ∧ state.sq.ringMask.toNat = 2 ^ k - 1

theorem State.Fresh.count {state : State} (h : state.Fresh) : state.ring.count = 0 :=
  state.ring.count_eq_zero_iff.mpr h.empty

theorem State.Fresh.valid {state : State} (h : state.Fresh) : Submission.Valid { state } where
  state :=
    { ring := ⟨h.sized, h.count ▸ Nat.zero_le _⟩
      indexed := fun i hi => absurd (h.count ▸ hi) (Nat.not_lt_zero i) }
  isOpen := h.isOpen
  pending := (state.ring.contents_eq_nil_iff.mpr h.empty).symm

/-- All calls on a ring fail without a trace or succeed as a whole if and only if the kernel takes
every entry of each call that the ring has the size for. -/
theorem submissions_atomic_iff (host : Host) (state : State) (h : state.Fresh)
    (calls : List (Request × EnterResult)) :
    Submission.AllAtomic host { state } calls ↔
      ∀ c ∈ calls, c.1.sqes.length ≤ state.sq.ringEntries.toNat →
        c.2.acceptsAll c.1.sqes.length = true :=
  Submission.allAtomic_iff h.valid h.count host calls

/-- A ring of eight entries whose counters are about to wrap. -/
def State.sample : State where
  sq :=
    { head := 0xffffffff#32
      tail := 0xffffffff#32
      ringMask := 7#32
      ringEntries := 8#32
      array := fun _ => 0#32 }
  sqes _ := {}

theorem State.sample_fresh : State.sample.Fresh where
  isOpen := ⟨by decide, rfl⟩
  empty := rfl
  sized := ⟨3, by decide, rfl, rfl⟩

theorem submissions_atomic_two_calls :
    State.sample.Fresh ∧
      Submission.AllAtomic Host.sample { state := .sample }
        [(.linked { opcode := .writev } 64#64 { opcode := .fsync } 128#64, .accepted 2),
          (.single { opcode := .fsync } 192#64, .accepted 1)] :=
  ⟨State.sample_fresh,
    (submissions_atomic_iff Host.sample .sample State.sample_fresh _).mpr (by decide)⟩

/-- `io_uring_enter` fails for a linked write, so the caller gives the operations up.  Both entries
stay, and the next call, which needs one entry taken, succeeds while the kernel takes the write of
the failed one. -/
theorem submission_failure_leaves_entries :
    let first := Submission.call Host.sample { state := .sample }
      (.linked { opcode := .writev } 64#64 { opcode := .fsync } 128#64) (.error 4)
    let second := first.2.call Host.sample (.single { opcode := .fsync } 192#64) (.accepted 1)
    first.1.ok = false ∧ first.2.consumed = [] ∧
      first.2.published.map (·.userData) = [64#64, 128#64] ∧
      second.1 = .Ok ∧ second.2.consumed.map (·.userData) = [64#64] ∧
      ¬Submission.AllAtomic Host.sample { state := .sample }
        [(.linked { opcode := .writev } 64#64 { opcode := .fsync } 128#64, .error 4),
          (.single { opcode := .fsync } 192#64, .accepted 1)] := by
  refine ⟨by decide, by decide, by decide, by decide, by decide, fun h => ?_⟩
  exact absurd (h.1.1 rfl) (by decide)

end StorageEngine.Io
