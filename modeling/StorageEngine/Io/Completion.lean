import StorageEngine.Io.Executor
import StorageEngine.Lib.CountedRing
import StorageEngine.Lib.Transition

/-! The completion side of `uring_executor.cc`: coroutines wait on operations inside their frames,
the kernel posts a completion for each operation into a ring, and `completionLoop` takes them out,
stores the results and resumes the coroutines. -/

namespace StorageEngine.Io

open CountedRing (Ring)
open Transition

structure Cqe where
  userData : BitVec 64
  res : Int32
  deriving DecidableEq

inductive Part where
  | single
  | write
  | sync
  deriving DecidableEq

/-- Tells operations apart for good; their addresses are used again. -/
structure Tag where
  owner : Nat
  part : Part
  deriving DecidableEq

/-- `UringExecutor::Operation` without its entry; the continuation is the coroutine it belongs
to. -/
structure Operation where
  tag : Tag
  continuation : Option Nat := none
  result : Int32 := 0
  deriving DecidableEq

abbrev Memory := BitVec 64 → Operation

/-- `SingleOperationAwaiter` and the awaiter of `WritevAndFDataSync`, with the addresses of their
operations. -/
inductive Awaiter where
  | single (address : BitVec 64) (submitError operationError : String)
  | linked (write sync : BitVec 64) (expectedBytes : Nat)
  deriving DecidableEq

inductive Outcome where
  | result (value : Result Int32)
  | status (value : Status)
  deriving DecidableEq

def Awaiter.awaitResume (host : Host) (memory : Memory) : Awaiter → Outcome
  | .single address submitError operationError =>
    .result (singleOperation host submitError operationError (.done (memory address).result))
  | .linked write sync expectedBytes =>
    .status (writevAndFDataSync host (.done (memory write).result (memory sync).result)
      expectedBytes)

structure Coroutine where
  id : Nat
  awaiter : Awaiter
  deriving DecidableEq

namespace Coroutine

/-- The operations as `await_suspend` leaves them.  Of two linked ones only the second has the
continuation. -/
def operations (c : Coroutine) : List (BitVec 64 × Operation) :=
  match c.awaiter with
  | .single address _ _ => [(address, { tag := ⟨c.id, .single⟩, continuation := some c.id })]
  | .linked write sync _ =>
    [(write, { tag := ⟨c.id, .write⟩ }),
      (sync, { tag := ⟨c.id, .sync⟩, continuation := some c.id })]

def addresses (c : Coroutine) : List (BitVec 64) := c.operations.map Prod.fst

def tags (c : Coroutine) : List Tag := c.operations.map fun p => p.2.tag

/-- The operation whose completion resumes the coroutine. -/
def carrier (c : Coroutine) : BitVec 64 × Tag :=
  match c.awaiter with
  | .single address _ _ => (address, ⟨c.id, .single⟩)
  | .linked _ sync _ => (sync, ⟨c.id, .sync⟩)

end Coroutine

inductive LoopPhase where
  | entering
  | draining
  | taken (cqe : Cqe)
  | recorded (address : BitVec 64)
  | returned

/-- The completion ring, the loop, the operations in memory, the coroutines that are suspended, and
the operations that the kernel works on.  The lists at the end are the history: coroutines that
were suspended, completions posted and delivered, each under the tag of its operation, and
coroutines resumed with what they returned. -/
structure Completions where
  ring : Ring 32 Cqe
  memory : Memory
  stopping : Bool := false
  phase : LoopPhase := .entering
  completionLoopCompletions : BitVec 64 := 0#64
  suspended : List Coroutine := []
  outstanding : List (BitVec 64) := []
  submitted : List Coroutine := []
  posted : List (Tag × Int32) := []
  delivered : List (Tag × Int32) := []
  resumed : List (Nat × Option Outcome) := []

def eintr : Int := 4

def store (memory : Memory) (operations : List (BitVec 64 × Operation)) : Memory :=
  operations.foldl (fun memory p => Function.update memory p.1 p.2) memory

namespace Completions

def record (s : Completions) (cqe : Cqe) : Completions :=
  let operation := s.memory cqe.userData
  { s with
    memory := Function.update s.memory cqe.userData { operation with result := cqe.res }
    completionLoopCompletions := s.completionLoopCompletions + 1#64
    delivered := s.delivered ++ [(operation.tag, cqe.res)]
    phase := .recorded cqe.userData }

def resume (host : Host) (s : Completions) (id : Nat) : Completions :=
  let coroutine := s.suspended.find? (·.id == id)
  { s with
    suspended := s.suspended.eraseP (·.id == id)
    resumed := s.resumed ++ [(id, coroutine.map fun c => c.awaiter.awaitResume host s.memory)]
    phase := .draining }

/-- `completionLoop` goes on; `enter` is the error of `io_uring_enter`, if any. -/
def loop (host : Host) (enter : Option Int) (s : Completions) : Completions :=
  match s.phase with
  | .entering =>
    match enter with
    | some errno =>
      if errno = eintr then s
      else if s.stopping then { s with phase := .returned }
      else s
    | none => { s with phase := .draining }
  | .draining =>
    if s.ring.head = s.ring.tail then { s with phase := .entering }
    else
      { s with
        phase := .taken (s.ring.slots (s.ring.head &&& s.ring.mask))
        ring.head := s.ring.head + 1#32 }
  | .taken cqe =>
    if cqe.userData = 0#64 then
      if s.stopping then { s with phase := .returned } else { s with phase := .draining }
    else s.record cqe
  | .recorded address =>
    match (s.memory address).continuation with
    | none => { s with phase := .draining }
    | some id => s.resume host id
  | .returned => s

/-- The addresses inside the frames of suspended coroutines. -/
def live (s : Completions) : List (BitVec 64) := s.suspended.flatMap Coroutine.addresses

def tag (s : Completions) (address : BitVec 64) : Tag := (s.memory address).tag

/-- The second operation is linked to the first. -/
def Linked (s : Completions) (write sync : BitVec 64) : Prop :=
  s.tag write = ⟨(s.tag sync).owner, .write⟩ ∧ (s.tag sync).part = .sync

instance (s : Completions) (write sync : BitVec 64) : Decidable (s.Linked write sync) :=
  inferInstanceAs (Decidable (_ ∧ _))

/-- The kernel puts an entry at the tail. -/
def post (ring : Ring 32 Cqe) (cqe : Cqe) : Ring 32 Cqe :=
  { ring with
    tail := ring.tail + 1#32
    slots := Function.update ring.slots (ring.tail &&& ring.mask) cqe }

/-- The kernel is done with the operation at `address`. -/
def complete (s : Completions) (address : BitVec 64) (res : Int32) : Completions :=
  { s with
    ring := post s.ring ⟨address, res⟩
    outstanding := s.outstanding.erase address
    posted := s.posted ++ [(s.tag address, res)] }

/-- `await_suspend` of a coroutine whose operations are submitted. -/
def submit (s : Completions) (c : Coroutine) : Completions :=
  { s with
    memory := store s.memory c.operations
    suspended := s.suspended ++ [c]
    outstanding := s.outstanding ++ c.addresses
    submitted := s.submitted ++ [c] }

/-- Between two steps of the loop coroutines are suspended, in frames that take no address in use,
and the kernel posts completions, that of a linked write before that of its sync.  After
`closeRing` has asked the loop to stop there is also the completion of its `IORING_OP_NOP`. -/
inductive Step (host : Host) : Completions → Completions → Prop
  | loop {s : Completions} (enter : Option Int) : Step host s (s.loop host enter)
  | submit {s : Completions} (c : Coroutine) (hid : c.id ∉ s.submitted.map Coroutine.id)
      (haddresses : c.addresses.Nodup) (hnull : 0#64 ∉ c.addresses)
      (hfree : ∀ a ∈ c.addresses, a ∉ s.live) : Step host s (s.submit c)
  | complete {s : Completions} (address : BitVec 64) (res : Int32) (hout : address ∈ s.outstanding)
      (horder : ∀ a ∈ s.outstanding, ¬s.Linked a address)
      (hroom : s.ring.count < s.ring.entries.toNat) : Step host s (s.complete address res)
  | stop {s : Completions} : Step host s { s with stopping := true }
  | postNop {s : Completions} (res : Int32) (hstop : s.stopping = true)
      (hroom : s.ring.count < s.ring.entries.toNat) :
      Step host s { s with ring := Completions.post s.ring ⟨0#64, res⟩ }

end Completions

/-- The loop starts on an empty ring, whatever value its counters have. -/
def completionLoop (host : Host) : System Completions where
  initial s := ∃ (ring : Ring 32 Cqe) (memory : Memory), ring.WellFormed ∧ ring.head = ring.tail ∧
    s = { ring, memory }
  step := Completions.Step host

end StorageEngine.Io
