import StorageEngine.Db.Model
import StorageEngine.Io.Resources
import StorageEngine.Lib.Transition

/-! The resources of a process.  `Open` takes the descriptor of the log, an executor and the writer
thread, and the destructor gives them back; a process opens and closes databases in any order, and
each call of the system may fail. -/

namespace StorageEngine

open Io Ledger Transition

/-- What `Open` meets.  `nop` is the status of the submission that wakes the completion thread, when
the new database is destroyed again. -/
structure OpenCalls where
  wal : Except Int Int
  ring : InitIo
  recover : RecoverIo
  writerStarts : Bool
  nop : Status

/-- The members of `DB` that hold resources. -/
structure Handle where
  owner : Nat
  walFd : Int
  executor : Option RingState
  writerThread : Bool := false

/-- What `Open` did: its status, or none when it threw, the database, the trace, and the statuses of
the submissions that were to wake completion threads. -/
structure Opened where
  status : Option Status
  db : Option Handle := none
  trace : List (Event Resource)
  nops : List Status := []

namespace Handle

/-- `~DB`; the executor is destroyed after the body of the destructor. -/
def destroy (nop : Status) (db : Handle) : List (Event Resource) :=
  releases db.writerThread (.writerThread db.owner) ++
    (releases (0 ≤ db.walFd) (.walFd db.owner db.walFd) ++ RingState.closeRing nop db.executor)

/-- `DB::Open` once the members are set. -/
def startWriter (host : Host) (io : OpenCalls) (file : Bytes) (db : Handle)
    (trace : List (Event Resource)) : Opened :=
  let (status, _, _) := DB.recover host io.recover file {}
  if !status.ok then
    { status := some status, trace := trace ++ db.destroy io.nop, nops := [io.nop] }
  else if io.writerStarts then
    { status := some .Ok
      db := some { db with writerThread := true }
      trace := trace ++ [.acquire (.writerThread db.owner)] }
  else
    { status := none, trace := trace ++ db.destroy io.nop, nops := [io.nop] }

/-- `DB::Open` after the executor.  When `Create` throws, no destructor knows of the descriptor. -/
def openCreated (host : Host) (owner : Nat) (io : OpenCalls) (file : Bytes) (fd : Int)
    (created : RingState.Init) : Opened :=
  let trace := [.acquire (.walFd owner fd)] ++ created.trace
  match created.status with
  | none => { status := none, trace }
  | some status =>
    if !status.ok then
      { status := some status, trace := trace ++ [.release (.walFd owner fd)] }
    else
      startWriter host io file { owner, walFd := fd, executor := created.state } trace

/-- `DB::Open`. -/
def openDb (host : Host) (owner : Nat) (io : OpenCalls) (file : Bytes) : Opened :=
  match io.wal with
  | .error errno =>
    { status := some (.ioError (errnoMessage host "open WAL" errno)), trace := [] }
  | .ok fd => openCreated host owner io file fd (RingState.create host owner io.ring)

/-! ### One database -/

def resources (db : Handle) : Multiset Resource :=
  part db.writerThread (.writerThread db.owner) +
    (part (0 ≤ db.walFd) (.walFd db.owner db.walFd) + db.executor.elim 0 RingState.resources)

/-- The executor of a database has its completion thread. -/
def Valid (db : Handle) : Prop :=
  ∃ state, db.executor = some state ∧ 0 ≤ state.ringFd ∧ state.owner = db.owner ∧
    state.completionThread = true

theorem Valid.owner_of_mem {db : Handle} (h : db.Valid) {r : Resource} (hr : r ∈ db.resources)
    (hthread : r.isThread = true) : r.owner = db.owner := by
  obtain ⟨state, hstate, -, howner, -⟩ := h
  rw [resources, hstate] at hr
  rcases Multiset.mem_add.mp hr with hr | hr
  · rw [mem_part hr]
    rfl
  rcases Multiset.mem_add.mp hr with hr | hr
  · rw [mem_part hr]
    rfl
  · rw [RingState.eq_of_mem_resources hr hthread, ← howner]
    rfl

theorem Valid.run_destroy {db : Handle} (h : db.Valid) (strict : Bool) (nop : Status)
    {frame : Multiset Resource} (hframe : RingState.Quiet db.owner frame) :
    Ledger.run (Resource.needs strict) (db.resources + frame) (db.destroy nop) =
      if strict && !nop.ok then none else some frame := by
  obtain ⟨state, hstate, hfd, howner, hthread⟩ := h
  have hwal : ∀ r' ∈ part (0 ≤ db.walFd) (.walFd db.owner db.walFd) + (state.resources + frame),
      Resource.needs strict r' (.walFd db.owner db.walFd) = false := by
    intro r' hr'
    rcases Multiset.mem_add.mp hr' with hr' | hr'
    · rw [mem_part hr']
      rfl
    rcases Multiset.mem_add.mp hr' with hr' | hr'
    · by_cases hthread' : r'.isThread = true
      · rw [RingState.eq_of_mem_resources hr' hthread', Resource.needs_completionThread_walFd]
      · exact Resource.needs_eq_false fun h => absurd h hthread'
    · exact Resource.needs_eq_false (hframe r' hr')
  have hclosed := RingState.run_closeRing strict nop (fun _ => hfd) (howner ▸ hframe)
  rw [resources, destroy, hstate, Option.elim_some, add_assoc, add_assoc,
    run_append_of _ (run_releases _ fun r' _ => Resource.needs_writerThread ..),
    run_append_of _ (run_releases _ hwal), hclosed, hthread, Bool.and_true]

end Handle

/-- What is held after `Open`. -/
def Opened.held (result : Opened) : Multiset Resource := result.db.elim 0 Handle.resources

def refused (nops : List Status) : Bool := nops.any (!·.ok)

structure OpenCalls.Valid (io : OpenCalls) : Prop where
  wal : ∀ fd, io.wal = .ok fd → 0 ≤ fd
  ring : io.ring.Valid

/-- The descriptor of the log, when the completion thread could not be started. -/
def OpenCalls.lost (owner : Nat) (io : OpenCalls) : Multiset Resource :=
  match io.wal with
  | .error _ => 0
  | .ok fd => part (io.ring.maps && !io.ring.threadStarts) (.walFd owner fd)

structure Opened.Spec (strict : Bool) (frame : Multiset Resource) (owner : Nat)
    (lost : Multiset Resource) (result : Opened) : Prop where
  run : Ledger.run (Resource.needs strict) frame result.trace =
    if strict && refused result.nops then none else some (result.held + (lost + frame))
  db : ∀ db, result.db = some db → db.Valid ∧ db.owner = owner

namespace Handle

variable {host : Host} {owner : Nat} {io : OpenCalls} {file : Bytes} {strict : Bool}
  {frame : Multiset Resource}

theorem startWriter_spec {db : Handle} {trace : List (Event Resource)} (hvalid : db.Valid)
    (hwriter : db.writerThread = false) (hframe : RingState.Quiet db.owner frame)
    (htrace : Ledger.run (Resource.needs strict) frame trace = some (db.resources + frame)) :
    (startWriter host io file db trace).Spec strict frame db.owner 0 := by
  have hdestroyed := hvalid.run_destroy strict io.nop hframe
  unfold startWriter
  dsimp only
  split
  case isTrue =>
    exact
      { run := by simp [run_append_of _ htrace, hdestroyed, refused, Opened.held]
        db := by simp }
  case isFalse =>
    split
    case isTrue =>
      exact
        { run := by
            simp [run_append_of _ htrace, refused, Opened.held, resources, part, hwriter,
              Multiset.singleton_add]
          db := by
            rintro db' hdb'
            cases hdb'
            exact ⟨hvalid, rfl⟩ }
    case isFalse =>
      exact
        { run := by simp [run_append_of _ htrace, hdestroyed, refused, Opened.held]
          db := by simp }

theorem openCreated_spec {fd : Int} {created : RingState.Init} (hfd : 0 ≤ fd)
    (hframe : RingState.Quiet owner frame)
    (hcreated : created.Spec strict (.walFd owner fd ::ₘ frame) owner)
    (hthrown : created.status = none → created.state = none) :
    (openCreated host owner io file fd created).Spec strict frame owner
      (part created.status.isNone (.walFd owner fd)) := by
  have htrace : Ledger.run (Resource.needs strict) frame
      ([.acquire (.walFd owner fd)] ++ created.trace) =
      some (created.held + .walFd owner fd ::ₘ frame) := by
    rw [run_append_of _ (run_acquire ..), hcreated.run]
  unfold openCreated
  dsimp only
  split
  case h_1 hstatus =>
    exact
      { run := by
          rw [htrace]
          simp [RingState.Init.held, hthrown hstatus, hstatus, refused, Opened.held, part,
            Multiset.singleton_add]
        db := by simp }
  case h_2 status hstatus =>
    rw [hstatus, Option.isNone_some]
    split
    case isTrue hok =>
      have hrelease : Ledger.run (Resource.needs strict) (.walFd owner fd ::ₘ frame)
          [.release (.walFd owner fd)] = some frame :=
        run_release _ fun r' hr' => Resource.needs_eq_false (hframe.cons rfl r' hr')
      have hstate := hcreated.refused status hstatus (by simpa using hok)
      exact
        { run := by
            rw [run_append_of _ htrace, RingState.Init.held, hstate]
            simp [hrelease, refused, Opened.held, part]
          db := by simp }
    case isFalse hok =>
      obtain ⟨state, hstate, hthread⟩ := hcreated.opened status hstatus (by simpa using hok)
      obtain ⟨hringFd, howner⟩ := hcreated.state state hstate
      have hresources : created.held + .walFd owner fd ::ₘ frame =
          resources { owner, walFd := fd, executor := created.state } + frame := by
        simp only [RingState.Init.held, resources, part, hfd, ← Multiset.singleton_add,
          decide_true, if_true, Bool.false_eq_true, if_false, zero_add]
        ac_rfl
      exact startWriter_spec ⟨state, hstate, hringFd, howner, hthread⟩ rfl hframe
        (htrace.trans (congrArg some hresources))

theorem openDb_spec (hio : io.Valid) (hframe : RingState.Quiet owner frame) :
    (openDb host owner io file).Spec strict frame owner (io.lost owner) := by
  unfold openDb
  split
  case h_1 errno hwal =>
    exact
      { run := by simp [hwal, Opened.held, OpenCalls.lost, refused]
        db := by simp }
  case h_2 fd hwal =>
    obtain ⟨hcreate, hthrown⟩ : (RingState.create host owner io.ring).Spec strict
      (.walFd owner fd ::ₘ frame) owner ∧ _ := RingState.create_spec hio.ring (hframe.cons rfl)
    have hlost : io.lost owner =
        part (RingState.create host owner io.ring).status.isNone (.walFd owner fd) := by
      have hthrows : (RingState.create host owner io.ring).status = none ↔ _ :=
        RingState.status_create_eq_none_iff
      have hpart : (RingState.create host owner io.ring).status.isNone =
          (io.ring.maps && !io.ring.threadStarts) := by
        rw [Bool.eq_iff_iff, Option.isNone_iff_eq_none, hthrows]
        simp
      simp [OpenCalls.lost, hwal, hpart]
    rw [hlost]
    exact openCreated_spec (hio.wal fd hwal) hframe hcreate hthrown

end Handle

/-- The calls, as the model of `Open` that computes the recovered database sees them. -/
def OpenCalls.toOpenIo (host : Host) (owner : Nat) (io : OpenCalls) : OpenIo where
  openWal :=
    match io.wal with
    | .error errno => some errno
    | .ok _ => none
  create := (RingState.create host owner io.ring).status.getD .Ok
  recover := io.recover

/-- Unless it throws, `Open` returns a database where that model does, and fails with its status. -/
theorem Handle.openDb_agrees (host : Host) (owner : Nat) (io : OpenCalls) (file : Bytes)
    {status : Status} (hstatus : (Handle.openDb host owner io file).status = some status) :
    match (DB.openDb host (io.toOpenIo host owner) file).1 with
    | .error error => status = error ∧ (Handle.openDb host owner io file).db = none
    | .ok _ => status = .Ok ∧ (Handle.openDb host owner io file).db ≠ none := by
  cases hwal : io.wal with
  | error errno =>
    simp_all [Handle.openDb, DB.openDb, OpenCalls.toOpenIo]
  | ok fd =>
    cases hcreate : (RingState.create host owner io.ring).status with
    | none => simp_all [Handle.openDb, Handle.openCreated]
    | some create =>
      cases hok : create.ok with
      | false => simp_all [Handle.openDb, Handle.openCreated, DB.openDb, OpenCalls.toOpenIo]
      | true =>
        cases hrecover : (DB.recover host io.recover file {}).1.ok <;>
          cases hwriter : io.writerStarts <;>
          simp_all [Handle.openDb, Handle.openCreated, Handle.startWriter, DB.openDb,
            OpenCalls.toOpenIo]

/-! ### A process -/

/-- The databases of a process, in the order in which they were opened, and the descriptors that
no database knows of any more. -/
structure Process where
  next : Nat := 0
  live : List Handle := []
  lost : Multiset Resource := 0
  nops : List Status := []
  trace : List (Event Resource) := []

namespace Process

def held (p : Process) : Multiset Resource := (p.live.map Handle.resources).sum + p.lost

def opened (host : Host) (p : Process) (io : OpenCalls) (file : Bytes) : Process :=
  let result := Handle.openDb host p.next io file
  { next := p.next + 1
    live := p.live ++ result.db.toList
    lost := p.lost + io.lost p.next
    nops := p.nops ++ result.nops
    trace := p.trace ++ result.trace }

inductive Step (host : Host) : Process → Process → Prop
  | opens (p : Process) {io : OpenCalls} (hio : io.Valid) (file : Bytes) :
    Step host p (p.opened host io file)
  | closes (p : Process) {before after : List Handle} {db : Handle}
    (hlive : p.live = before ++ db :: after) (nop : Status) :
    Step host p
      { p with
        live := before ++ after
        nops := p.nops ++ [nop]
        trace := p.trace ++ db.destroy nop }

end Process

def process (host : Host) : System Process where
  initial p := p = {}
  step := Process.Step host

namespace Process

structure Balanced (p : Process) : Prop where
  run : ∀ strict, Ledger.run (Resource.needs strict) 0 p.trace =
    if strict && refused p.nops then none else some p.held
  valid : ∀ db ∈ p.live, db.Valid ∧ db.owner < p.next
  distinct : p.live.Pairwise (·.owner ≠ ·.owner)
  lost : ∀ r ∈ p.lost, r.isThread = false

theorem quiet_sum {owner : Nat} {dbs : List Handle}
    (h : ∀ db ∈ dbs, db.Valid ∧ db.owner ≠ owner) :
    RingState.Quiet owner (dbs.map Handle.resources).sum := by
  induction dbs with
  | nil => simp [RingState.Quiet]
  | cons db dbs ih =>
    obtain ⟨hdb, hdbs⟩ := List.forall_mem_cons.mp h
    have hquiet : RingState.Quiet owner db.resources := by
      intro r hr hthread
      rw [hdb.1.owner_of_mem hr hthread]
      exact hdb.2
    exact hquiet.add (ih hdbs)

theorem Balanced.quiet_lost {p : Process} (h : p.Balanced) (owner : Nat) :
    RingState.Quiet owner p.lost := by
  intro r hr hthread
  rw [h.lost r hr] at hthread
  contradiction

theorem refused_append (nops later : List Status) :
    refused (nops ++ later) = (refused nops || refused later) := List.any_append

theorem OpenCalls.isThread_of_mem_lost {io : OpenCalls} {owner : Nat} {r : Resource}
    (hr : r ∈ io.lost owner) : r.isThread = false := by
  unfold OpenCalls.lost at hr
  split at hr
  · simp at hr
  · rw [mem_part hr]
    rfl

theorem Balanced.opened {host : Host} {p : Process} (h : p.Balanced) {io : OpenCalls}
    (hio : io.Valid) (file : Bytes) : (p.opened host io file).Balanced := by
  have hquiet : RingState.Quiet p.next p.held :=
    (quiet_sum fun db hdb => ⟨(h.valid db hdb).1, (h.valid db hdb).2.ne⟩).add (h.quiet_lost _)
  have hspec : ∀ strict, (Handle.openDb host p.next io file).Spec strict p.held p.next
      (io.lost p.next) := fun strict => Handle.openDb_spec hio hquiet
  have hdb : ∀ db ∈ (Handle.openDb host p.next io file).db.toList,
      db.Valid ∧ db.owner = p.next := fun db hdb =>
    (hspec false).db db (Option.mem_toList.mp hdb)
  exact
    { run := by
        intro strict
        have hheld : (p.opened host io file).held =
            (Handle.openDb host p.next io file).held + (io.lost p.next + p.held) := by
          cases hresult : (Handle.openDb host p.next io file).db <;>
            simp [Process.opened, held, Opened.held, hresult] <;> ac_rfl
        have hrun := run_append_ite _ (h.run strict) (hspec strict).run
        rw [← Bool.and_or_distrib_left, ← refused_append, ← hheld] at hrun
        exact hrun
      valid := by
        intro db hmem
        rcases List.mem_append.mp hmem with hmem | hmem
        · exact ⟨(h.valid db hmem).1, Nat.lt_succ_of_lt (h.valid db hmem).2⟩
        · obtain ⟨hvalid, howner⟩ := hdb db hmem
          exact ⟨hvalid, howner ▸ Nat.lt_succ_self _⟩
      distinct := by
        refine List.pairwise_append.mpr ⟨h.distinct, ?_, ?_⟩
        · cases (Handle.openDb host p.next io file).db <;> simp
        · intro db hmem db' hmem'
          rw [(hdb db' hmem').2]
          exact (h.valid db hmem).2.ne
      lost := by
        intro r hr
        rcases Multiset.mem_add.mp hr with hr | hr
        · exact h.lost r hr
        · exact OpenCalls.isThread_of_mem_lost hr }

theorem Balanced.closes {p : Process} (h : p.Balanced) {before after : List Handle} {db : Handle}
    (hlive : p.live = before ++ db :: after) (nop : Status) :
    Balanced { p with live := before ++ after, nops := p.nops ++ [nop],
                      trace := p.trace ++ db.destroy nop } := by
  have hsub : ∀ db' ∈ before ++ after, db' ∈ p.live := by
    rw [hlive]
    intro db' hdb'
    simp only [List.mem_append, List.mem_cons] at hdb' ⊢
    tauto
  have hmem : db ∈ p.live := by simp [hlive]
  have hdistinct := h.distinct
  rw [hlive, List.pairwise_middle fun h => h.symm, List.pairwise_cons] at hdistinct
  have hheld : p.held = db.resources +
      (((before ++ after).map Handle.resources).sum + p.lost) := by
    rw [held, hlive]
    simp only [List.map_append, List.map_cons, List.sum_append, List.sum_cons]
    ac_rfl
  have hquiet : RingState.Quiet db.owner
      (((before ++ after).map Handle.resources).sum + p.lost) :=
    (quiet_sum fun db' hdb' => ⟨(h.valid db' (hsub db' hdb')).1, (hdistinct.1 db' hdb').symm⟩).add
      (h.quiet_lost _)
  exact
    { run := by
        intro strict
        have hrun := run_append_ite _ (hheld ▸ h.run strict)
          ((h.valid db hmem).1.run_destroy strict nop hquiet)
        rw [← Bool.and_or_distrib_left] at hrun
        simpa [refused_append, refused, held] using hrun
      valid := fun db' hdb' => h.valid db' (hsub db' hdb')
      distinct := hdistinct.2
      lost := h.lost }

theorem balanced_of_reachable {host : Host} {p : Process} (h : Reachable (process host) p) :
    p.Balanced := by
  apply h.invariant
  · rintro p rfl
    exact
      { run := fun strict => by simp [refused, held]
        valid := by simp
        distinct := List.Pairwise.nil
        lost := by simp }
  · rintro s t - hs hst
    cases hst with
    | opens hio file => exact hs.opened hio file
    | closes hlive nop => exact hs.closes hlive nop

end Process

/-- Whatever fails, nothing is given back that is not held or that a thread of its database still
uses, and the process holds what its databases hold, with the descriptor of the log of each `Open`
whose completion thread could not be started.  The descriptor of a ring is closed under its
completion thread exactly when a submission of `closeRing` fails. -/
theorem open_and_close_balance (host : Host) {p : Process} (h : Reachable (process host) p) :
    Ledger.run (Resource.needs false) 0 p.trace =
        some ((p.live.map Handle.resources).sum + p.lost) ∧
      ((Ledger.run (Resource.needs true) 0 p.trace).isSome ↔ ∀ nop ∈ p.nops, nop.ok = true) := by
  have hbalanced := Process.balanced_of_reachable h
  refine ⟨by simpa [Process.held] using hbalanced.run false, ?_⟩
  rw [hbalanced.run true]
  simp [refused]

/-- The calls of an `Open` of an empty log. -/
def OpenCalls.empty (threadStarts : Bool) : OpenCalls where
  wal := .ok 3
  ring :=
    { setup := .ok (4, ⟨64, 8, 128, 16, false⟩)
      sqRing := .ok 4096
      cqRing := .ok 8192
      sqes := .ok 12288
      threadStarts }
  recover := { readv := .done 0 }
  writerStarts := true
  nop := .Ok

theorem OpenCalls.valid_empty (threadStarts : Bool) : (OpenCalls.empty threadStarts).Valid := by
  refine ⟨?_, ?_, ?_, ?_, ?_⟩ <;> simp [OpenCalls.empty]

/-- An `Open` that throws, one that returns a database, and the destruction of that database with a
submission that fails. -/
theorem open_and_close_balance_lost_log :
    ∃ p, Reachable (process .sample) p ∧ p.live = [] ∧
      Ledger.run (Resource.needs false) 0 p.trace = some (0 + {.walFd 0 3}) ∧
      ¬ (Ledger.run (Resource.needs true) 0 p.trace).isSome := by
  have hthrown : Reachable (process .sample) _ :=
    .step (.initial rfl) (.opens {} (OpenCalls.valid_empty false) [])
  have hopened := hthrown.step (.opens _ (OpenCalls.valid_empty true) [])
  have hclosed := hopened.step (@Process.Step.closes _ _ [] [] _ rfl (.ioError "closed"))
  obtain ⟨hheld, hstrict⟩ := open_and_close_balance .sample hclosed
  refine ⟨_, hclosed, rfl, hheld, ?_⟩
  rw [hstrict]
  simp

end StorageEngine
