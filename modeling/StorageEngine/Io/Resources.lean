import StorageEngine.Common
import StorageEngine.Lib.Ledger

/-! The resources of an executor.  `init` opens a ring, maps its parts and starts the completion
thread, and undoes what it did when a step fails; `closeRing` stops the thread and gives everything
back. -/

namespace StorageEngine.Io

open Ledger

/-- Descriptors, mappings and threads.  The number says which database a resource belongs to; two
databases never have the same, while descriptors and addresses are used again. -/
inductive Resource where
  | walFd (owner : Nat) (fd : Int)
  | ringFd (owner : Nat) (fd : Int)
  | mapping (owner : Nat) (address : BitVec 64) (size : Nat)
  | completionThread (owner : Nat)
  | writerThread (owner : Nat)
  deriving DecidableEq

namespace Resource

def owner : Resource → Nat
  | walFd owner _ | ringFd owner _ | mapping owner _ _ => owner
  | completionThread owner | writerThread owner => owner

def isThread : Resource → Bool
  | completionThread _ | writerThread _ => true
  | _ => false

/-- The completion thread reads the mapped rings, and the writer thread writes to the log through
the ring.  When it is `strict`, the completion thread also needs the descriptor that it gives to
`io_uring_enter`. -/
def needs (strict : Bool) : Resource → Resource → Bool
  | completionThread owner, mapping owner' _ _ => owner == owner'
  | completionThread owner, ringFd owner' _ => strict && owner == owner'
  | writerThread _, writerThread _ => false
  | writerThread owner, r => owner == r.owner
  | _, _ => false

@[simp] theorem needs_writerThread (strict : Bool) (r' : Resource) (owner : Nat) :
    needs strict r' (writerThread owner) = false := by
  cases r' <;> rfl

@[simp] theorem needs_completionThread_walFd (strict : Bool) (owner owner' : Nat) (fd : Int) :
    needs strict (completionThread owner) (walFd owner' fd) = false := rfl

theorem needs_eq_false {strict : Bool} {r' r : Resource}
    (h : r'.isThread = true → r'.owner ≠ r.owner) : needs strict r' r = false := by
  cases r' <;> cases r <;> simp_all [needs, isThread, owner]

end Resource

/-- What `io_uring_setup` fills in. -/
structure Params where
  sqOffArray : BitVec 32
  sqEntries : BitVec 32
  cqOffCqes : BitVec 32
  cqEntries : BitVec 32
  singleMmap : Bool

/-- What the kernel answers to the calls of `init`: error numbers, or the ring and the addresses of
the mappings.  A thread that cannot be started is an exception. -/
structure InitIo where
  setup : Except Int (Int × Params)
  sqRing : Except Int (BitVec 64)
  cqRing : Except Int (BitVec 64)
  sqes : Except Int (BitVec 64)
  threadStarts : Bool

/-- Every call before the start of the completion thread succeeds. -/
def InitIo.maps (io : InitIo) : Bool :=
  match io.setup with
  | .error _ => false
  | .ok (_, params) =>
    io.sqRing.isOk && (params.singleMmap || io.cqRing.isOk) && io.sqes.isOk

/-- The members of `UringExecutor::State` that are resources. -/
structure RingState where
  owner : Nat
  ringFd : Int := -1
  sqRingPtr : BitVec 64 := 0#64
  cqRingPtr : BitVec 64 := 0#64
  sqesPtr : BitVec 64 := 0#64
  sqRingSize : Nat := 0
  cqRingSize : Nat := 0
  sqesSize : Nat := 0
  singleMmap : Bool := false
  completionThread : Bool := false

namespace RingState

/-- `closeRing`, after the completion thread. -/
def unmap (state : RingState) : List (Event Resource) :=
  releases (state.sqesPtr != 0#64) (.mapping state.owner state.sqesPtr state.sqesSize) ++
    releases (state.cqRingPtr != 0#64 && state.cqRingPtr != state.sqRingPtr)
      (.mapping state.owner state.cqRingPtr state.cqRingSize) ++
    releases (state.sqRingPtr != 0#64) (.mapping state.owner state.sqRingPtr state.sqRingSize) ++
    releases (0 ≤ state.ringFd) (.ringFd state.owner state.ringFd)

/-- `closeRing`; `nop` is the status of the submission that is to wake the completion thread. -/
def closeRing (nop : Status) : Option RingState → List (Event Resource)
  | none => []
  | some state =>
    if state.completionThread then
      if !nop.ok then
        [.release (.ringFd state.owner state.ringFd), .release (.completionThread state.owner)] ++
          { state with ringFd := -1 }.unmap
      else
        .release (.completionThread state.owner) :: state.unmap
    else
      state.unmap

/-- What `init` did: its status, or none when it threw, the state, and the trace. -/
structure Init where
  status : Option Status
  state : Option RingState
  trace : List (Event Resource)

/-- A failed `mmap` in `init`. -/
def failed (host : Host) (call : String) (errno : Int) (state : RingState)
    (trace : List (Event Resource)) : Init where
  status := some (.ioError (errnoMessage host call errno))
  state := none
  trace := trace ++ closeRing .Ok (some state)

def startThread (io : InitIo) (state : RingState) (trace : List (Event Resource)) : Init :=
  if io.threadStarts then
    { status := some .Ok
      state := some { state with completionThread := true }
      trace := trace ++ [.acquire (.completionThread state.owner)] }
  else
    { status := none, state := some state, trace }

def mapSqes (host : Host) (io : InitIo) (params : Params) (state : RingState)
    (trace : List (Event Resource)) : Init :=
  let state := { state with sqesSize := params.sqEntries.toNat * 64 }
  match io.sqes with
  | .error errno => failed host "mmap sqes" errno state trace
  | .ok address =>
    let state := { state with sqesPtr := address }
    startThread io state (trace ++ [.acquire (.mapping state.owner address state.sqesSize)])

def mapCqRing (host : Host) (io : InitIo) (params : Params) (state : RingState)
    (trace : List (Event Resource)) : Init :=
  if state.singleMmap then
    mapSqes host io params { state with cqRingPtr := state.sqRingPtr } trace
  else
    match io.cqRing with
    | .error errno => failed host "mmap cq ring" errno state trace
    | .ok address =>
      let state := { state with cqRingPtr := address }
      mapSqes host io params state
        (trace ++ [.acquire (.mapping state.owner address state.cqRingSize)])

def mapSqRing (host : Host) (io : InitIo) (params : Params) (state : RingState)
    (trace : List (Event Resource)) : Init :=
  match io.sqRing with
  | .error errno => failed host "mmap sq ring" errno state trace
  | .ok address =>
    let state := { state with sqRingPtr := address }
    mapCqRing host io params state
      (trace ++ [.acquire (.mapping state.owner address state.sqRingSize)])

/-- The sizes of the mappings. -/
def sized (owner : Nat) (fd : Int) (params : Params) : RingState :=
  let sqRingSize := params.sqOffArray.toNat + params.sqEntries.toNat * 4
  let cqRingSize := params.cqOffCqes.toNat + params.cqEntries.toNat * 16
  let state : RingState := { owner, ringFd := fd, sqRingSize, cqRingSize }
  if params.singleMmap then
    { state with
      singleMmap := true
      sqRingSize := max sqRingSize cqRingSize
      cqRingSize := max sqRingSize cqRingSize }
  else
    state

/-- `UringExecutor::init`. -/
def init (host : Host) (owner : Nat) (io : InitIo) : Init :=
  match io.setup with
  | .error errno =>
    { status := some (.ioError (errnoMessage host "io_uring_setup" errno)), state := none,
      trace := [] }
  | .ok (fd, params) =>
    mapSqRing host io params (sized owner fd params) [.acquire (.ringFd owner fd)]

/-- `UringExecutor::Create`.  When `init` throws, the destructor of the executor that is being
created closes the ring; an executor that was moved from has no state. -/
def create (host : Host) (owner : Nat) (io : InitIo) : Init :=
  let result := init host owner io
  match result.status with
  | none => { status := none, state := none, trace := result.trace ++ closeRing .Ok result.state }
  | some status =>
    if !status.ok then
      { status := some status, state := none, trace := result.trace ++ closeRing .Ok result.state }
    else
      result

/-! ### Giving back -/

/-- What is left of the resources once the completion thread is gone. -/
def mapped (state : RingState) : Multiset Resource :=
  part (state.sqesPtr != 0#64) (.mapping state.owner state.sqesPtr state.sqesSize) +
    (part (state.cqRingPtr != 0#64 && state.cqRingPtr != state.sqRingPtr)
        (.mapping state.owner state.cqRingPtr state.cqRingSize) +
      (part (state.sqRingPtr != 0#64) (.mapping state.owner state.sqRingPtr state.sqRingSize) +
        part (0 ≤ state.ringFd) (.ringFd state.owner state.ringFd)))

def resources (state : RingState) : Multiset Resource :=
  part state.completionThread (.completionThread state.owner) + state.mapped

/-- No thread of the owner is among the resources. -/
def Quiet (owner : Nat) (held : Multiset Resource) : Prop :=
  ∀ r ∈ held, r.isThread = true → r.owner ≠ owner

theorem Quiet.add {owner : Nat} {held held' : Multiset Resource} (h : Quiet owner held)
    (h' : Quiet owner held') : Quiet owner (held + held') := fun r hr =>
  (Multiset.mem_add.mp hr).elim (h r) (h' r)

theorem Quiet.cons {owner : Nat} {held : Multiset Resource} (h : Quiet owner held) {r : Resource}
    (hr : r.isThread = false) : Quiet owner (r ::ₘ held) := by
  intro r' hr' hthread
  rcases Multiset.mem_cons.mp hr' with rfl | hr'
  · rw [hr] at hthread
    contradiction
  · exact h r' hr' hthread

theorem quiet_part {owner : Nat} {c : Bool} {r : Resource} (h : r.isThread = false) :
    Quiet owner (part c r) := by
  intro r' hr' hthread
  rw [mem_part hr', h] at hthread
  contradiction

theorem Quiet.run_releases {strict c : Bool} {r : Resource} {held : Multiset Resource}
    (h : Quiet r.owner (part c r + held)) :
    Ledger.run (Resource.needs strict) (part c r + held) (releases c r) = some held :=
  Ledger.run_releases _ fun r' hr' => Resource.needs_eq_false (h r' hr')

theorem run_unmap (strict : Bool) (state : RingState) {frame : Multiset Resource}
    (hframe : Quiet state.owner frame) :
    Ledger.run (Resource.needs strict) (state.mapped + frame) state.unmap = some frame := by
  have hfd : Quiet state.owner (part (0 ≤ state.ringFd) (.ringFd state.owner state.ringFd) +
      frame) := (quiet_part rfl).add hframe
  have hsq : Quiet state.owner (part (state.sqRingPtr != 0#64)
      (.mapping state.owner state.sqRingPtr state.sqRingSize) + _) := (quiet_part rfl).add hfd
  have hcq : Quiet state.owner (part (state.cqRingPtr != 0#64 && state.cqRingPtr != state.sqRingPtr)
      (.mapping state.owner state.cqRingPtr state.cqRingSize) + _) := (quiet_part rfl).add hsq
  have hsqes : Quiet state.owner (part (state.sqesPtr != 0#64)
      (.mapping state.owner state.sqesPtr state.sqesSize) + _) := (quiet_part rfl).add hcq
  rw [unmap, List.append_assoc, List.append_assoc, mapped, add_assoc, add_assoc, add_assoc,
    run_append_of _ (Quiet.run_releases hsqes), run_append_of _ (Quiet.run_releases hcq),
    run_append_of _ (Quiet.run_releases hsq)]
  exact Quiet.run_releases hfd

theorem quiet_mapped (state : RingState) (owner : Nat) : Quiet owner state.mapped :=
  (quiet_part rfl).add ((quiet_part rfl).add ((quiet_part rfl).add (quiet_part rfl)))

theorem eq_of_mem_resources {state : RingState} {r : Resource} (hr : r ∈ state.resources)
    (hthread : r.isThread = true) : r = .completionThread state.owner := by
  rcases Multiset.mem_add.mp hr with hr | hr
  · exact mem_part hr
  · exact absurd rfl (quiet_mapped state r.owner r hr hthread)

theorem Quiet.run_stop {strict : Bool} {owner : Nat} {held : Multiset Resource}
    (h : Quiet owner held) :
    Ledger.run (Resource.needs strict) (.completionThread owner ::ₘ held)
      [.release (.completionThread owner)] = some held := by
  apply run_release
  intro r' hr'
  rcases Multiset.mem_cons.mp hr' with rfl | hr'
  · rfl
  · exact Resource.needs_eq_false (h r' hr')

/-- The completion thread is only there with a ring. -/
def Valid (state : RingState) : Prop := state.completionThread = true → 0 ≤ state.ringFd

/-- `closeRing` gives back what the state says, and closes the descriptor under the completion
thread when the submission failed. -/
theorem run_closeRing (strict : Bool) (nop : Status) {state : RingState} (hvalid : state.Valid)
    {frame : Multiset Resource} (hframe : Quiet state.owner frame) :
    Ledger.run (Resource.needs strict) (state.resources + frame) (closeRing nop (some state)) =
      if strict && state.completionThread && !nop.ok then none else some frame := by
  cases hthread : state.completionThread with
  | false =>
    have hresources : state.resources = state.mapped := by simp [resources, part, hthread]
    simp [closeRing, hthread, hresources, run_unmap strict state hframe]
  | true =>
    have hresources : state.resources = .completionThread state.owner ::ₘ state.mapped := by
      simp [resources, part, hthread, Multiset.singleton_add]
    cases hnop : nop.ok with
    | true =>
      have hclose : closeRing nop (some state) =
          [.release (.completionThread state.owner)] ++ state.unmap := by
        simp [closeRing, hthread, hnop]
      rw [hclose, hresources, Multiset.cons_add,
        run_append_of _ ((quiet_mapped state _).add hframe).run_stop, run_unmap strict state hframe]
      simp
    | false =>
      have hclose : closeRing nop (some state) = [.release (.ringFd state.owner state.ringFd)] ++
          ([.release (.completionThread state.owner)] ++ { state with ringFd := -1 }.unmap) := by
        simp [closeRing, hthread, hnop]
      have hmapped : state.mapped =
          .ringFd state.owner state.ringFd ::ₘ { state with ringFd := -1 }.mapped := by
        simp only [mapped, part, hvalid hthread, ← Multiset.singleton_add]
        simp only [decide_true, if_true, show ¬(0 : Int) ≤ -1 by decide, decide_false,
          Bool.false_eq_true, if_false, add_zero]
        ac_rfl
      rw [hclose, hresources, hmapped, Multiset.cons_swap, Multiset.cons_add, Multiset.cons_add]
      cases strict with
      | true =>
        rw [run_append, run_release_needed (Resource.needs true)
          (Multiset.mem_cons_of_mem (Multiset.mem_cons_self _ _)) (by simp [Resource.needs])]
        simp
      | false =>
        have hquiet := (quiet_mapped { state with ringFd := -1 } state.owner).add hframe
        rw [run_append_of _ (run_release _ _), run_append_of _ hquiet.run_stop]
        · simpa using run_unmap false { state with ringFd := -1 } hframe
        · intro r' hr'
          rcases Multiset.mem_cons.mp hr' with rfl | hr'
          · rfl
          rcases Multiset.mem_cons.mp hr' with rfl | hr'
          · rfl
          · exact Resource.needs_eq_false (hquiet r' hr')

/-! ### Acquiring -/

/-- What is held after `init`. -/
def Init.held (result : Init) : Multiset Resource := result.state.elim 0 resources

end RingState

/-- The kernel gives out descriptors and addresses that are there, and the two rings are mapped at
different addresses. -/
structure InitIo.Valid (io : InitIo) : Prop where
  fd : ∀ fd params, io.setup = .ok (fd, params) → 0 ≤ fd
  sqRing : ∀ address, io.sqRing = .ok address → address ≠ 0#64
  cqRing : ∀ address, io.cqRing = .ok address → address ≠ 0#64 ∧ io.sqRing ≠ .ok address
  sqes : ∀ address, io.sqes = .ok address → address ≠ 0#64

namespace RingState

/-- The trace has led from `frame` to the ring of the state, without a completion thread. -/
structure Built (strict : Bool) (frame : Multiset Resource) (owner : Nat) (state : RingState)
    (trace : List (Event Resource)) : Prop where
  run : Ledger.run (Resource.needs strict) frame trace = some (state.mapped + frame)
  fd : 0 ≤ state.ringFd
  thread : state.completionThread = false
  owner_eq : state.owner = owner

/-- What `init` leaves, whatever it returns or throws. -/
structure Init.Spec (strict : Bool) (frame : Multiset Resource) (owner : Nat) (result : Init) :
    Prop where
  run : Ledger.run (Resource.needs strict) frame result.trace = some (result.held + frame)
  state : ∀ state, result.state = some state → 0 ≤ state.ringFd ∧ state.owner = owner
  opened : ∀ status, result.status = some status → status.ok = true →
    ∃ state, result.state = some state ∧ state.completionThread = true
  refused : ∀ status, result.status = some status → status.ok = false → result.state = none

variable {strict : Bool} {host : Host} {io : InitIo} {params : Params} {state : RingState}
  {trace : List (Event Resource)} {frame : Multiset Resource} {owner : Nat}

theorem Built.congr (h : Built strict frame owner state trace) {state' : RingState}
    (hmapped : state'.mapped = state.mapped) (hfd : 0 ≤ state'.ringFd)
    (hthread : state'.completionThread = false) (howner : state'.owner = owner) :
    Built strict frame owner state' trace where
  run := by rw [h.run, hmapped]
  fd := hfd
  thread := hthread
  owner_eq := howner

theorem Built.acquire (h : Built strict frame owner state trace) {state' : RingState}
    {r : Resource} (hmapped : state'.mapped = r ::ₘ state.mapped) (hfd : 0 ≤ state'.ringFd)
    (hthread : state'.completionThread = false) (howner : state'.owner = owner) :
    Built strict frame owner state' (trace ++ [.acquire r]) where
  run := by rw [run_append_of _ h.run, run_acquire, hmapped, Multiset.cons_add]
  fd := hfd
  thread := hthread
  owner_eq := howner

theorem Built.failed_spec (h : Built strict frame owner state trace) (hframe : Quiet owner frame)
    (call : String) (errno : Int) :
    (failed host call errno state trace).Spec strict frame owner where
  run := by
    have hresources : state.resources = state.mapped := by simp [resources, part, h.thread]
    have hclosed := run_closeRing strict .Ok (fun _ => h.fd) (h.owner_eq ▸ hframe)
    simpa [failed, Init.held, run_append_of _ h.run, hresources] using hclosed
  state := by simp [failed]
  opened := by
    rintro status hstatus hok
    cases hstatus
    simp at hok
  refused := by simp [failed]

theorem Built.startThread_spec (h : Built strict frame owner state trace) :
    (startThread io state trace).Spec strict frame owner := by
  unfold startThread
  split
  case isTrue =>
    exact
      { run := by
          simp [Init.held, run_append_of _ h.run, resources, part, mapped, Multiset.singleton_add]
        state := by
          rintro state' hstate
          cases hstate
          exact ⟨h.fd, h.owner_eq⟩
        opened := fun _ _ _ => ⟨_, rfl, rfl⟩
        refused := by
          rintro status hstatus hok
          cases hstatus
          simp at hok }
  case isFalse =>
    exact
      { run := by simp [Init.held, resources, part, h.thread, h.run]
        state := by
          rintro state' hstate
          cases hstate
          exact ⟨h.fd, h.owner_eq⟩
        opened := by simp
        refused := by simp }

theorem Built.mapSqes_spec (h : Built strict frame owner state trace) (hframe : Quiet owner frame)
    (hio : io.Valid) (hsqes : state.sqesPtr = 0#64) :
    (mapSqes host io params state trace).Spec strict frame owner := by
  unfold mapSqes
  split
  case h_1 errno _ =>
    apply Built.failed_spec _ hframe
    refine h.congr ?_ h.fd h.thread h.owner_eq
    simp [mapped, part, hsqes]
  case h_2 address haddress =>
    apply Built.startThread_spec
    refine h.acquire ?_ h.fd h.thread h.owner_eq
    simp [mapped, part, hsqes, hio.sqes address haddress, ← Multiset.singleton_add]

theorem Built.mapCqRing_spec (h : Built strict frame owner state trace)
    (hframe : Quiet owner frame) (hio : io.Valid) (hsqes : state.sqesPtr = 0#64)
    (hcq : state.cqRingPtr = 0#64) (hsq : io.sqRing = .ok state.sqRingPtr) :
    (mapCqRing host io params state trace).Spec strict frame owner := by
  unfold mapCqRing
  split
  case isTrue =>
    refine Built.mapSqes_spec ?_ hframe hio hsqes
    refine h.congr ?_ h.fd h.thread h.owner_eq
    simp [mapped, part, hcq]
  case isFalse =>
    split
    case h_1 errno _ => exact h.failed_spec hframe _ _
    case h_2 address haddress =>
      obtain ⟨hne, hother⟩ := hio.cqRing address haddress
      have hdistinct : address ≠ state.sqRingPtr := fun heq => hother (heq ▸ hsq)
      refine Built.mapSqes_spec ?_ hframe hio hsqes
      refine h.acquire ?_ h.fd h.thread h.owner_eq
      simp [mapped, part, hsqes, hcq, hne, hdistinct, ← Multiset.singleton_add]

theorem Built.mapSqRing_spec (h : Built strict frame owner state trace)
    (hframe : Quiet owner frame) (hio : io.Valid) (hsqes : state.sqesPtr = 0#64)
    (hcq : state.cqRingPtr = 0#64) (hsq : state.sqRingPtr = 0#64) :
    (mapSqRing host io params state trace).Spec strict frame owner := by
  unfold mapSqRing
  split
  case h_1 errno _ => exact h.failed_spec hframe _ _
  case h_2 address haddress =>
    refine Built.mapCqRing_spec ?_ hframe hio hsqes hcq haddress
    refine h.acquire ?_ h.fd h.thread h.owner_eq
    simp [mapped, part, hsqes, hcq, hsq, hio.sqRing address haddress, ← Multiset.singleton_add]

theorem init_spec (hio : io.Valid) (hframe : Quiet owner frame) :
    (init host owner io).Spec strict frame owner := by
  unfold init
  split
  case h_1 errno _ =>
    exact
      { run := by simp [Init.held]
        state := by simp
        opened := by
          rintro status hstatus hok
          cases hstatus
          simp at hok
        refused := by simp }
  case h_2 fd params hsetup =>
    have hfd := hio.fd fd params hsetup
    have hbuilt : Built strict frame owner (sized owner fd params) [.acquire (.ringFd owner fd)] :=
      by unfold sized; split <;> constructor <;> simp [mapped, part, hfd]
    apply hbuilt.mapSqRing_spec hframe hio <;> unfold sized <;> split <;> rfl

/-- An executor that could not be created has given everything back. -/
theorem create_spec (hio : io.Valid) (hframe : Quiet owner frame) :
    (create host owner io).Spec strict frame owner ∧
      ((create host owner io).status = none → (create host owner io).state = none) := by
  have hinit : (init host owner io).Spec strict frame owner := init_spec hio hframe
  have hclosed : Ledger.run (Resource.needs strict) frame
      ((init host owner io).trace ++ closeRing .Ok (init host owner io).state) = some frame := by
    rw [run_append_of _ hinit.run, Init.held]
    cases hstate : (init host owner io).state with
    | none => simp [closeRing]
    | some state =>
      obtain ⟨hfd, howner⟩ := hinit.state state hstate
      simpa using run_closeRing strict .Ok (fun _ => hfd) (howner ▸ hframe)
  by_cases hok : ∃ status, (init host owner io).status = some status ∧ status.ok = true
  case pos =>
    obtain ⟨status, hstatus, hok⟩ := hok
    have hcreate : create host owner io = init host owner io := by simp [create, hstatus, hok]
    rw [hcreate, hstatus]
    exact ⟨hinit, fun h => absurd h (by simp)⟩
  case neg =>
    have hcreate : create host owner io =
        { status := (init host owner io).status, state := none,
          trace := (init host owner io).trace ++ closeRing .Ok (init host owner io).state } := by
      unfold create
      cases hstatus : (init host owner io).status <;> simp_all
    rw [hcreate]
    refine ⟨{ run := ?_, state := ?_, opened := ?_, refused := ?_ }, ?_⟩ <;>
      simp_all [Init.held]

theorem singleMmap_sized (owner : Nat) (fd : Int) (params : Params) :
    (sized owner fd params).singleMmap = params.singleMmap := by
  unfold sized
  cases params.singleMmap <;> rfl

theorem status_init_eq_none_iff :
    (init host owner io).status = none ↔ io.maps = true ∧ io.threadStarts = false := by
  cases hsetup : io.setup with
  | error errno => simp [init, InitIo.maps, hsetup]
  | ok ring =>
    cases hsq : io.sqRing <;> cases hcq : io.cqRing <;> cases hsqes : io.sqes <;>
      cases hsingle : ring.2.singleMmap <;> cases hstart : io.threadStarts <;>
      simp [init, mapSqRing, mapCqRing, mapSqes, startThread, failed, singleMmap_sized,
        InitIo.maps, Except.isOk, Except.toBool, *]

/-- `Create` throws exactly when the completion thread cannot be started. -/
theorem status_create_eq_none_iff :
    (create host owner io).status = none ↔ io.maps = true ∧ io.threadStarts = false := by
  have hinit : (init host owner io).status = none ↔ _ := status_init_eq_none_iff
  rw [← hinit, create]
  cases hstatus : (init host owner io).status with
  | none => simp
  | some status => cases hok : status.ok <;> simp [hok, hstatus]

end RingState

end StorageEngine.Io
