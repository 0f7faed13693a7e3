import StorageEngine.Io.Submission
import StorageEngine.Lib.Transition

/-! The submission ring under interleaving.  A call holds the mutex while it loads the two counters,
writes its entries and their indices word by word, and publishes the tail; the kernel may take
entries between any two of these steps, from its polling thread or in `io_uring_enter`.  The ring is
a queue all the time: what the kernel takes is what was published, in order, and no write reaches an
entry that still waits. -/

namespace StorageEngine.Io

open CountedRing (Ring)
open Transition

/-! ### The writes of a call -/

inductive Write where
  | sqe (index : BitVec 32) (sqe : Sqe)
  | userData (index : BitVec 32) (userData : BitVec 64)
  | array (index : BitVec 32)

def Write.index : Write → BitVec 32
  | .sqe index _ => index
  | .userData index _ => index
  | .array index => index

namespace Request

def writes (tail ringMask : BitVec 32) : Request → List Write
  | .raw source userData =>
    let index := tail &&& ringMask
    [.sqe index source, .userData index userData, .array index]
  | .single operation address =>
    let index := tail &&& ringMask
    [.sqe index operation, .userData index address, .array index]
  | .linked first firstAddress second secondAddress =>
    let firstIndex := tail &&& ringMask
    let secondIndex := (tail + 1#32) &&& ringMask
    [.sqe firstIndex
        { first with flags := first.flags ||| ioSqeIoLink, userData := firstAddress },
      .sqe secondIndex { second with userData := secondAddress },
      .array firstIndex, .array secondIndex]

theorem index_of_mem_writes {tail ringMask : BitVec 32} {request : Request} {write : Write}
    (h : write ∈ request.writes tail ringMask) :
    ∃ j < request.sqes.length, write.index = (tail + BitVec.ofNat 32 j) &&& ringMask := by
  have hfirst : tail &&& ringMask = (tail + BitVec.ofNat 32 0) &&& ringMask := by
    rw [BitVec.add_zero]
  cases request with
  | raw source userData =>
    refine ⟨0, Nat.zero_lt_one, hfirst ▸ ?_⟩
    simp only [writes, List.mem_cons, List.not_mem_nil, or_false] at h
    obtain rfl | rfl | rfl := h <;> rfl
  | single operation address =>
    refine ⟨0, Nat.zero_lt_one, hfirst ▸ ?_⟩
    simp only [writes, List.mem_cons, List.not_mem_nil, or_false] at h
    obtain rfl | rfl | rfl := h <;> rfl
  | linked first firstAddress second secondAddress =>
    simp only [writes, List.mem_cons, List.not_mem_nil, or_false] at h
    obtain rfl | rfl | rfl | rfl := h
    · exact ⟨0, Nat.zero_lt_two, hfirst⟩
    · exact ⟨1, Nat.one_lt_two, rfl⟩
    · exact ⟨0, Nat.zero_lt_two, hfirst⟩
    · exact ⟨1, Nat.one_lt_two, rfl⟩

end Request

namespace State

def write (state : State) : Write → State
  | .sqe index sqe => { state with sqes := Function.update state.sqes index sqe }
  | .userData index userData =>
    { state with
      sqes := Function.update state.sqes index { state.sqes index with userData } }
  | .array index => { state with sq.array := Function.update state.sq.array index index }

def writeAll (state : State) (writes : List Write) : State := writes.foldl write state

def publish (state : State) (tail : BitVec 32) : State := { state with sq.tail := tail }

/-- The kernel takes `n` entries at the head. -/
def consume (state : State) (n : Nat) : State := state.enter n (.accepted n)

/-- The writes of a call and the publication together push its entries. -/
theorem publish_writeAll (state : State) (request : Request) :
    (state.writeAll (request.writes state.sq.tail state.sq.ringMask)).publish
        (state.sq.tail + BitVec.ofNat 32 request.sqes.length) =
      state.pushAll request.sqes := by
  cases request with
  | raw source userData =>
    simp [writeAll, Request.writes, write, publish, Request.sqes, pushAll, push]
  | single operation address =>
    simp [writeAll, Request.writes, write, publish, Request.sqes, pushAll, push]
  | linked first firstAddress second secondAddress =>
    exact congrArg (publish _) (Request.add_two state.sq.tail)

theorem writeAll_consume (state : State) (n : Nat) (writes : List Write) :
    (state.consume n).writeAll writes = (state.writeAll writes).consume n :=
  List.foldl_hom (fun state => consume state n) fun _ write => by cases write <;> rfl

theorem consume_spec {state : State} (h : state.Valid) {n : Nat} (hn : n ≤ state.ring.count) :
    (state.consume n).Valid ∧ (state.consume n).ring.contents = state.ring.contents.drop n := by
  have := enter_spec h hn (.accepted n)
  rwa [EnterResult.taken, Nat.min_self] at this

/-- The entries that wait in `state` are the same in `after`, and so are their indices. -/
def Keeps (state after : State) : Prop :=
  ∀ i < state.ring.count,
    after.sqes (state.ring.slotAt i) = state.sqes (state.ring.slotAt i) ∧
      after.sq.array (state.ring.slotAt i) = state.sq.array (state.ring.slotAt i)

theorem Keeps.refl (state : State) : state.Keeps state := fun _ _ => ⟨rfl, rfl⟩

/-- No entry waits in a slot of the writes. -/
def Free (state : State) (writes : List Write) : Prop :=
  ∀ write ∈ writes, ∀ i < state.ring.count, state.ring.slotAt i ≠ write.index

theorem free_writes {state : State} (h : state.Valid) {request : Request}
    (hroom : state.ring.count + request.sqes.length ≤ state.sq.ringEntries.toNat) :
    state.Free (request.writes state.sq.tail state.sq.ringMask) := by
  intro write hwrite i hi
  obtain ⟨j, hj, hindex⟩ := Request.index_of_mem_writes hwrite
  have hroom' : state.ring.count + j < state.ring.entries.toNat :=
    Nat.lt_of_lt_of_le (by omega) hroom
  rw [hindex]
  exact CountedRing.slotAt_ne_behind h.ring hroom' hi

theorem Free.consume {state : State} {writes : List Write} (h : state.Free writes)
    (hvalid : state.Valid) {n : Nat} (hn : n ≤ state.ring.count) :
    (state.consume n).Free writes := by
  intro write hwrite i hi
  have hcount : (state.consume n).ring.count = state.ring.count - n := by
    rw [← Ring.length_contents, (consume_spec hvalid hn).2, List.length_drop, Ring.length_contents]
  have hslot : (state.consume n).ring.slotAt i = state.ring.slotAt (n + i) := by
    simp only [Ring.slotAt, ring, State.consume, enter, EnterResult.taken, Nat.min_self,
      BitVec.ofNat_add, BitVec.add_assoc]
  rw [hslot]
  exact h write hwrite (n + i) (by omega)

theorem keeps_write {state : State} {write : Write} {writes : List Write}
    (h : state.Free (write :: writes)) : state.Keeps (state.write write) := by
  intro i hi
  have hne := h write List.mem_cons_self i hi
  cases write with
  | sqe index sqe => exact ⟨Function.update_of_ne hne _ _, rfl⟩
  | userData index userData => exact ⟨Function.update_of_ne hne _ _, rfl⟩
  | array index => exact ⟨rfl, Function.update_of_ne hne _ _⟩

/-- Of the ring, a write changes slots only. -/
theorem ring_write (state : State) (write : Write) :
    (state.write write).ring = { state.ring with slots := (state.write write).ring.slots } := by
  cases write <;> rfl

theorem write_spec {state : State} (h : state.Valid) {write : Write}
    (hkeeps : state.Keeps (state.write write)) :
    (state.write write).Valid ∧ (state.write write).ring.contents = state.ring.contents := by
  have hring := state.ring_write write
  have hcount : (state.write write).ring.count = state.ring.count := by
    rw [hring]
    rfl
  have hslot : ∀ i, (state.write write).ring.slotAt i = state.ring.slotAt i := fun i => by
    rw [hring]
    rfl
  refine ⟨⟨⟨?_, ?_⟩, fun i hi => ?_⟩, ?_⟩
  · rw [hring]
    exact h.ring.sized
  · rw [hcount, hring]
    exact h.ring.room
  · rw [hcount] at hi
    rw [hslot]
    exact (hkeeps i hi).2.trans (h.indexed i hi)
  · rw [Ring.contents, hcount]
    apply List.map_congr_left
    intro i hi
    obtain ⟨hsqe, harray⟩ := hkeeps i (List.mem_range.mp hi)
    rw [hslot]
    show (state.write write).sqes ((state.write write).sq.array (state.ring.slotAt i)) =
      state.sqes (state.sq.array (state.ring.slotAt i))
    rw [harray, h.indexed i (List.mem_range.mp hi), hsqe]

theorem Free.write {state : State} {write : Write} {writes : List Write}
    (h : state.Free (write :: writes)) : (state.write write).Free writes := by
  intro other hother i hi
  rw [ring_write] at hi ⊢
  exact h other (List.mem_cons_of_mem _ hother) i hi

end State

/-! ### Interleavings -/

/-- Where the call that holds the mutex is. -/
inductive Phase where
  | idle
  | counting (request : Request) (tail : BitVec 32)
  | checking (request : Request) (tail head : BitVec 32)
  | writing (request : Request) (tail : BitVec 32) (writes : List Write)

/-- The ring, the calls that have published their entries, and the entries that the kernel took. -/
structure Submitting where
  state : State
  phase : Phase := .idle
  accepted : List Request := []
  consumed : List Sqe := []

namespace Submitting

def published (s : Submitting) : List Sqe := s.accepted.flatMap Request.sqes

inductive Step : Submitting → Submitting → Prop
  | loadTail {s : Submitting} (request : Request) (hphase : s.phase = .idle) :
      Step s { s with phase := .counting request s.state.sq.tail }
  | loadHead {s : Submitting} (request : Request) (tail : BitVec 32)
      (hphase : s.phase = .counting request tail) :
      Step s { s with phase := .checking request tail s.state.sq.head }
  | refuse {s : Submitting} (request : Request) (tail head : BitVec 32)
      (hphase : s.phase = .checking request tail head)
      (hfull : request.full tail head s.state.sq.ringEntries = true) :
      Step s { s with phase := .idle }
  | accept {s : Submitting} (request : Request) (tail head : BitVec 32)
      (hphase : s.phase = .checking request tail head)
      (hfull : request.full tail head s.state.sq.ringEntries = false) :
      Step s { s with
        phase := .writing request tail (request.writes tail s.state.sq.ringMask) }
  | write {s : Submitting} (request : Request) (tail : BitVec 32) (write : Write)
      (writes : List Write) (hphase : s.phase = .writing request tail (write :: writes)) :
      Step s { s with
        state := s.state.write write
        phase := .writing request tail writes }
  | publish {s : Submitting} (request : Request) (tail : BitVec 32)
      (hphase : s.phase = .writing request tail []) :
      Step s { s with
        state := s.state.publish (tail + BitVec.ofNat 32 request.sqes.length)
        phase := .idle
        accepted := s.accepted ++ [request] }
  | consume {s : Submitting} (n : Nat) (hn : n ≤ s.state.ring.count) :
      Step s { s with
        state := s.state.consume n
        consumed := s.consumed ++ s.state.ring.contents.take n }

end Submitting

/-- The ring starts empty, with any value of the counters and any power of two as its size. -/
def submitting : System Submitting where
  initial s :=
    s.state.sq.head = s.state.sq.tail ∧
      (∃ k < 32, s.state.sq.ringEntries.toNat = 2 ^ k ∧ s.state.sq.ringMask.toNat = 2 ^ k - 1) ∧
      s.phase = .idle ∧ s.accepted = [] ∧ s.consumed = []
  step := Submitting.Step

/-- What a call knows: the tail is its own until it publishes, the head it has loaded may be old,
and its writes go to free slots and lead to a queue with its entries at the end. -/
def Phase.Sound (state : State) : Phase → Prop
  | .idle => True
  | .counting _ tail => tail = state.sq.tail
  | .checking _ tail head =>
    tail = state.sq.tail ∧ state.ring.count ≤ (tail - head).toNat ∧
      (tail - head).toNat ≤ state.sq.ringEntries.toNat
  | .writing request tail writes =>
    let after := (state.writeAll writes).publish (tail + BitVec.ofNat 32 request.sqes.length)
    state.Free writes ∧ after.Valid ∧ after.ring.contents = state.ring.contents ++ request.sqes

namespace Submitting

structure Valid (s : Submitting) : Prop where
  state : s.state.Valid
  pending : s.published = s.consumed ++ s.state.ring.contents
  phase : s.phase.Sound s.state

theorem valid_of_initial {s : Submitting} (h : submitting.initial s) : s.Valid := by
  obtain ⟨hempty, hsized, hphase, haccepted, hconsumed⟩ := h
  have hcount : s.state.ring.count = 0 := s.state.ring.count_eq_zero_iff.mpr hempty
  refine ⟨⟨⟨hsized, hcount ▸ Nat.zero_le _⟩, fun i hi => ?_⟩, ?_, ?_⟩
  · rw [hcount] at hi
    exact absurd hi (Nat.not_lt_zero i)
  · rw [published, haccepted, hconsumed, s.state.ring.contents_eq_nil_iff.mpr hempty]
    rfl
  · rw [hphase]
    trivial

/-- A call that the check lets through has room, though the head it loaded may be old. -/
theorem room_of_not_full {state : State} (h : state.Valid) {request : Request}
    {tail head : BitVec 32} (hsound : (Phase.checking request tail head).Sound state)
    (hfull : request.full tail head state.sq.ringEntries = false) :
    state.ring.count + request.sqes.length ≤ state.sq.ringEntries.toNat := by
  obtain ⟨-, hcount, hroom⟩ := hsound
  have hfits := mt (request.full_iff h.sized hroom).mpr (by simp [hfull])
  omega

theorem sound_consume {state : State} (h : state.Valid) {n : Nat} (hn : n ≤ state.ring.count)
    {phase : Phase} (hsound : phase.Sound state) : phase.Sound (state.consume n) := by
  have hcontents := (State.consume_spec h hn).2
  cases phase with
  | idle => trivial
  | counting request tail => exact hsound
  | checking request tail head =>
    obtain ⟨htail, hcount, hroom⟩ := hsound
    refine ⟨htail, ?_, hroom⟩
    rw [← Ring.length_contents, hcontents, List.length_drop, Ring.length_contents]
    omega
  | writing request tail writes =>
    obtain ⟨hfree, hvalid, hafter⟩ := hsound
    have hcount : n ≤ ((state.writeAll writes).publish
        (tail + BitVec.ofNat 32 request.sqes.length)).ring.count := by
      rw [← Ring.length_contents, hafter, List.length_append, Ring.length_contents]
      omega
    obtain ⟨hvalid', hafter'⟩ := State.consume_spec hvalid hcount
    have hlen : n ≤ state.ring.contents.length := by rwa [Ring.length_contents]
    refine ⟨hfree.consume h hn, ?_, ?_⟩
    · rw [State.writeAll_consume]
      exact hvalid'
    · rw [State.writeAll_consume, hcontents, ← List.drop_append_of_le_length hlen, ← hafter]
      exact hafter'

theorem valid_step {s t : Submitting} (h : s.Valid) (hstep : Step s t) : t.Valid := by
  have hsound := h.phase
  cases hstep with
  | loadTail request hphase => exact ⟨h.state, h.pending, rfl⟩
  | loadHead request tail hphase =>
    rw [hphase] at hsound
    obtain rfl : tail = s.state.sq.tail := hsound
    exact ⟨h.state, h.pending, rfl, Nat.le_refl _, h.state.ring.room⟩
  | refuse request tail head hphase hfull => exact ⟨h.state, h.pending, trivial⟩
  | accept request tail head hphase hfull =>
    rw [hphase] at hsound
    have hroom := room_of_not_full h.state hsound hfull
    obtain rfl : tail = s.state.sq.tail := hsound.1
    have hpush := State.pushAll_spec h.state request.sqes hroom
    rw [← State.publish_writeAll] at hpush
    exact ⟨h.state, h.pending, State.free_writes h.state hroom, hpush⟩
  | write request tail write writes hphase =>
    rw [hphase] at hsound
    obtain ⟨hfree, hafter⟩ := hsound
    obtain ⟨hvalid, hcontents⟩ := State.write_spec h.state (State.keeps_write hfree)
    refine ⟨hvalid, ?_, hfree.write, ?_⟩
    · rw [hcontents]
      exact h.pending
    · rw [hcontents]
      exact hafter
  | publish request tail hphase =>
    rw [hphase] at hsound
    obtain ⟨-, hvalid, hcontents⟩ := hsound
    refine ⟨hvalid, ?_, trivial⟩
    have hpending := congrArg (· ++ request.sqes) h.pending
    simp only [published, List.flatMap_append, List.flatMap_singleton, List.append_assoc]
      at hpending ⊢
    rw [hpending, ← hcontents]
    rfl
  | consume n hn =>
    obtain ⟨hvalid, hcontents⟩ := State.consume_spec h.state hn
    refine ⟨hvalid, ?_, sound_consume h.state hn hsound⟩
    rw [hcontents, List.append_assoc, List.take_append_drop]
    exact h.pending

theorem valid_of_reachable {s : Submitting} (h : Reachable submitting s) : s.Valid :=
  h.invariant (fun _ => valid_of_initial) fun _ _ _ => valid_step

/-- No step reaches an entry that waits. -/
theorem keeps_step {s t : Submitting} (h : s.Valid) (hstep : Step s t) : s.state.Keeps t.state := by
  cases hstep with
  | write request tail write writes hphase =>
    have hsound := h.phase
    rw [hphase] at hsound
    exact State.keeps_write hsound.1
  | _ => exact .refl s.state

/-! ### Calls without interruption -/

theorem run_writes (s : Submitting) (request : Request) (tail : BitVec 32) (writes : List Write) :
    Relation.ReflTransGen Step { s with phase := .writing request tail writes }
      { s with
        state := s.state.writeAll writes
        phase := .writing request tail [] } := by
  induction writes generalizing s with
  | nil => exact .refl
  | cons write writes ih =>
    exact .head (.write request tail write writes rfl) (ih { s with state := s.state.write write })

/-- A call of the executor that nothing interrupts is a run of the system. -/
theorem Valid.run_call {s : Submitting} (h : s.Valid) (hphase : s.phase = .idle) (host : Host)
    (request : Request) (result : EnterResult) :
    ∃ t, Relation.ReflTransGen Step s t ∧ t.phase = .idle ∧
      t.state = (request.run host s.state result).2 := by
  rw [request.run_eq]
  by_cases hclosed : request.closed s.state = true
  · exact ⟨s, .refl, hphase, by rw [if_pos hclosed]⟩
  rw [if_neg hclosed]
  have hload : Relation.ReflTransGen Step s
      { s with phase := .checking request s.state.sq.tail s.state.sq.head } :=
    .tail (.single (.loadTail request hphase)) (.loadHead request _ rfl)
  by_cases hfull : request.full s.state.sq.tail s.state.sq.head s.state.sq.ringEntries = true
  · exact ⟨_, hload.tail (.refuse request _ _ rfl hfull), rfl, by rw [if_pos hfull]⟩
  have hroom : s.state.ring.count + request.sqes.length ≤ s.state.sq.ringEntries.toNat :=
    not_not.mp (mt (Request.full_iff_count h.state request).mpr hfull)
  have hpublish := ((hload.tail (.accept request _ _ rfl (by simpa using hfull))).trans
    (s.run_writes request _ _)).tail (.publish request _ rfl)
  simp only [s.state.publish_writeAll request] at hpublish
  rw [if_neg hfull]
  by_cases hpoll : s.state.sqPollEnabled = true
  · exact ⟨_, hpublish, rfl, by simp only [if_pos hpoll]⟩
  · have hcount : result.taken request.sqes.length ≤ (s.state.pushAll request.sqes).ring.count := by
      have htaken := result.taken_le request.sqes.length
      rw [← Ring.length_contents, (State.pushAll_spec h.state request.sqes hroom).2,
        List.length_append]
      omega
    refine ⟨_, hpublish.tail (.consume (result.taken request.sqes.length) hcount), rfl, ?_⟩
    simp only [if_neg hpoll, State.consume, State.enter, EnterResult.taken, Nat.min_self]

end Submitting

/-! ### Links -/

def Sqe.linked (sqe : Sqe) : Bool := sqe.flags &&& ioSqeIoLink ≠ 0#8

theorem Sqe.not_linked {sqe : Sqe} (h : sqe.flags = 0#8) : sqe.linked = false := by
  rw [linked, h]
  rfl

theorem Sqe.linked_link (sqe : Sqe) (userData : BitVec 64) :
    Sqe.linked { sqe with flags := sqe.flags ||| ioSqeIoLink, userData } = true := by
  have hflags : ∀ flags : BitVec 8, (flags ||| ioSqeIoLink) &&& ioSqeIoLink ≠ 0#8 := by
    decide +kernel
  exact decide_eq_true (hflags sqe.flags)

namespace Request

/-- The caller has not set the flag itself. -/
def Unlinked : Request → Prop
  | .raw source _ => source.linked = false
  | .single operation _ => operation.linked = false
  | .linked first _ second _ => first.linked = false ∧ second.linked = false

/-! The entries that the executor submits start from `io_uring_sqe{}`. -/

def ioringFsyncDatasync : BitVec 32 := 1#32

def closeRing : Request := .raw { opcode := .nop } 0#64

def writevAndFDataSync (fd : Int) (iovecs : BitVec 64) (size : BitVec 32) (offset : BitVec 64)
    (writeOperation syncOperation : BitVec 64) : Request :=
  .linked { opcode := .writev, fd, addr := iovecs, len := size, off := offset } writeOperation
    { opcode := .fsync, fd, fsyncFlags := ioringFsyncDatasync } syncOperation

def readAt (fd : Int) (iov offset operation : BitVec 64) : Request :=
  .single { opcode := .readv, fd, addr := iov, len := 1#32, off := offset } operation

def fDataSync (fd : Int) (operation : BitVec 64) : Request :=
  .single { opcode := .fsync, fd, fsyncFlags := ioringFsyncDatasync } operation

inductive Issued : Request → Prop
  | closeRing : Issued closeRing
  | writevAndFDataSync (fd : Int) (iovecs : BitVec 64) (size : BitVec 32)
      (offset writeOperation syncOperation : BitVec 64) :
      Issued (writevAndFDataSync fd iovecs size offset writeOperation syncOperation)
  | readAt (fd : Int) (iov offset operation : BitVec 64) : Issued (readAt fd iov offset operation)
  | fDataSync (fd : Int) (operation : BitVec 64) : Issued (fDataSync fd operation)

theorem Issued.unlinked {request : Request} (h : request.Issued) : request.Unlinked := by
  cases h with
  | closeRing => exact Sqe.not_linked rfl
  | writevAndFDataSync => exact ⟨Sqe.not_linked rfl, Sqe.not_linked rfl⟩
  | readAt => exact Sqe.not_linked rfl
  | fDataSync => exact Sqe.not_linked rfl

/-- Where a call sets the flag. -/
def links : Request → List Bool
  | .raw _ _ => [false]
  | .single _ _ => [false]
  | .linked _ _ _ _ => [true, false]

theorem Unlinked.map_linked {request : Request} (h : request.Unlinked) :
    request.sqes.map Sqe.linked = request.links := by
  cases request with
  | raw source userData => exact congrArg (fun flag => [flag]) h
  | single operation address => exact congrArg (fun flag => [flag]) h
  | linked first firstAddress second secondAddress =>
    rw [sqes, links, List.map_cons, List.map_singleton, Sqe.linked_link]
    exact congrArg (fun flag => [true, flag]) h.2

end Request

theorem Submitting.map_linked_published {s : Submitting}
    (h : ∀ request ∈ s.accepted, request.Unlinked) :
    s.published.map Sqe.linked = s.accepted.flatMap Request.links := by
  rw [published, List.map_flatMap]
  exact List.flatMap_congr fun request hrequest => (h request hrequest).map_linked

/-- In every interleaving of the calls with the kernel: the kernel takes the published entries in
order and each once, the two entries of a pair stand together with the flag on the first when no
caller sets it, as none does, the counters never lie further apart than the size, no step reaches an
entry that waits, and a call that is refused changes nothing.  A whole call of the executor is a run
of these steps. -/
theorem submission_ring_fifo {s : Submitting} (h : Reachable submitting s) :
    s.published = s.consumed ++ s.state.ring.contents ∧
      ((∀ request ∈ s.accepted, request.Unlinked) →
        s.published.map Sqe.linked = s.accepted.flatMap Request.links) ∧
      (∀ request : Request, request.Issued → request.Unlinked) ∧
      (s.state.sq.tail - s.state.sq.head).toNat ≤ s.state.sq.ringEntries.toNat ∧
      (∀ t, submitting.step s t → s.state.Keeps t.state) ∧
      (∀ request tail head t, s.phase = .checking request tail head → submitting.step s t →
        t.phase = .idle → t = { s with phase := .idle }) ∧
      (∀ host request result,
        request.full s.state.sq.tail s.state.sq.head s.state.sq.ringEntries = true →
          (Request.run host s.state result request).2 = s.state) ∧
      (s.phase = .idle → ∀ host request result, ∃ t,
        Relation.ReflTransGen submitting.step s t ∧ t.phase = .idle ∧
          t.state = (Request.run host s.state result request).2) := by
  have hvalid := Submitting.valid_of_reachable h
  refine ⟨hvalid.pending, Submitting.map_linked_published, fun request => Request.Issued.unlinked,
    hvalid.state.ring.room, fun t => Submitting.keeps_step hvalid, ?_, ?_,
    fun hidle => hvalid.run_call hidle⟩
  · intro request tail head t hphase hstep hidle
    cases hstep with
    | refuse => rfl
    | loadTail _ hphase' => simp [hphase] at hphase'
    | publish _ _ hphase' => simp [hphase] at hphase'
    | consume => simp [hphase] at hidle
    | _ => simp at hidle
  · intro host request result hfull
    rw [request.run_eq, if_pos hfull]
    split <;> rfl

/-- A pair is published across the wrap of the counters, and the kernel takes its first entry. -/
theorem submission_ring_fifo_pair :
    ∃ s : Submitting, Reachable submitting s ∧ s.state.sq.tail = 1#32 ∧
      s.consumed.map Sqe.userData = [64#64] ∧
      s.state.ring.contents.map Sqe.userData = [128#64] ∧
      s.published = s.consumed ++ s.state.ring.contents := by
  let pair : Request := .linked { opcode := .writev } 64#64 { opcode := .fsync } 128#64
  have hstart : Reachable submitting { state := .sample } :=
    .initial ⟨rfl, ⟨3, by decide, rfl, rfl⟩, rfl, rfl, rfl⟩
  have haccept := ((hstart.step (.loadTail pair rfl)).step (.loadHead pair _ rfl)).step
    (.accept pair _ _ rfl (by decide))
  have hwritten := haccept.trans (Submitting.run_writes { state := .sample } pair _ _)
  have hpublish := hwritten.step (.publish pair _ rfl)
  have htaken := hpublish.step (.consume 1 (by decide +kernel))
  exact ⟨_, htaken, by decide +kernel, by decide +kernel, by decide +kernel,
    (submission_ring_fifo htaken).1⟩

end StorageEngine.Io
