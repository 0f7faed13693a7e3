import StorageEngine.Io.Fifo

/-! Submission with `sqPoll`: a thread of the kernel takes the entries, and goes to sleep when there
are none for a while.  Before it sleeps it sets a flag and looks at the ring once more; a call that
has published its entries loads the flag, and wakes the thread if it is set.  The store of the tail
is a release and the load of the flag an acquire, which lets a processor keep the store in a buffer
until after the load. -/

namespace StorageEngine.Io

open Transition Relation

namespace State

def needsWakeup (state : State) : Bool := state.sq.flags &&& ioRingSqNeedWakeup ≠ 0#32

def setNeedWakeup (state : State) : State :=
  { state with sq.flags := state.sq.flags ||| ioRingSqNeedWakeup }

def clearNeedWakeup (state : State) : State :=
  { state with sq.flags := state.sq.flags &&& ~~~ioRingSqNeedWakeup }

theorem needsWakeup_setNeedWakeup (state : State) : state.setNeedWakeup.needsWakeup = true := by
  have hbit : (state.setNeedWakeup.sq.flags &&& ioRingSqNeedWakeup).getLsbD 0 = true := by
    simp [setNeedWakeup, ioRingSqNeedWakeup]
  rw [needsWakeup, decide_eq_true_eq]
  intro hzero
  simp [hzero] at hbit

end State

/-- What the thread of the kernel does: it takes entries, it has set the flag and looks at the ring
once more, it sleeps, or it was woken and has yet to clear the flag. -/
inductive Poller where
  | polling
  | drowsy
  | asleep
  | woken
  deriving DecidableEq

def Poller.wake : Poller → Poller
  | .polling => .polling
  | _ => .woken

/-- Where a call is after it has stored the tail: it loads the flag, it calls `io_uring_enter`, or
it releases the mutex. -/
inductive Caller where
  | out
  | loading
  | waking
  | leaving
  deriving DecidableEq

/-- `buffered` says that the store of the tail has not reached the memory. -/
structure Polling where
  submitting : Submitting
  caller : Caller := .out
  buffered : Bool := false
  poller : Poller := .polling

namespace Polling

def publish (s : Polling) (request : Request) (tail : BitVec 32) : Submitting :=
  { s.submitting with
    state := s.submitting.state.publish (tail + BitVec.ofNat 32 request.sqes.length)
    phase := .idle
    accepted := s.submitting.accepted ++ [request] }

def setState (s : Polling) (state : State) (poller : Poller) : Polling :=
  { s with submitting.state := state, poller }

/-- The steps of the call that has stored the tail. -/
inductive CallerStep : Polling → Polling → Prop
  | flush {s : Polling} (request : Request) (tail : BitVec 32)
      (hphase : s.submitting.phase = .writing request tail []) (hbuffered : s.buffered = true) :
      CallerStep s { s with submitting := s.publish request tail, buffered := false }
  | loadFlags {s : Polling} (hcaller : s.caller = .loading) :
      CallerStep s { s with
        caller := if s.submitting.state.needsWakeup then .waking else .leaving }
  | wake {s : Polling} (hcaller : s.caller = .waking) (hflushed : s.buffered = false) :
      CallerStep s { s with caller := .leaving, poller := s.poller.wake }
  | unlock {s : Polling} (hcaller : s.caller = .leaving) (hflushed : s.buffered = false) :
      CallerStep s { s with caller := .out }

/-- `call` is a step of a call before it stores the tail. -/
inductive Step (storeBuffer : Bool) : Polling → Polling → Prop
  | call {s : Polling} (t : Submitting) (hcaller : s.caller = .out)
      (h : Submitting.Step s.submitting t) (hphase : t.phase ≠ s.submitting.phase)
      (haccepted : t.accepted = s.submitting.accepted) :
      Step storeBuffer s { s with submitting := t }
  | publish {s : Polling} (request : Request) (tail : BitVec 32) (hcaller : s.caller = .out)
      (hphase : s.submitting.phase = .writing request tail []) :
      Step storeBuffer s { s with submitting := s.publish request tail, caller := .loading }
  | store {s : Polling} (request : Request) (tail : BitVec 32) (hbuffer : storeBuffer = true)
      (hcaller : s.caller = .out) (hphase : s.submitting.phase = .writing request tail []) :
      Step storeBuffer s { s with caller := .loading, buffered := true }
  | caller {s t : Polling} (h : CallerStep s t) : Step storeBuffer s t
  | consume {s : Polling} (n : Nat) (hpoller : s.poller = .polling)
      (hn : n ≤ s.submitting.state.ring.count) :
      Step storeBuffer s { s with
        submitting.state := s.submitting.state.consume n
        submitting.consumed := s.submitting.consumed ++ s.submitting.state.ring.contents.take n }
  | idle {s : Polling} (hpoller : s.poller = .polling)
      (hempty : s.submitting.state.sq.head = s.submitting.state.sq.tail) :
      Step storeBuffer s (s.setState s.submitting.state.setNeedWakeup .drowsy)
  | sleep {s : Polling} (hpoller : s.poller = .drowsy)
      (hempty : s.submitting.state.sq.head = s.submitting.state.sq.tail) :
      Step storeBuffer s { s with poller := .asleep }
  | stay {s : Polling} (hpoller : s.poller = .drowsy)
      (hwork : s.submitting.state.sq.head ≠ s.submitting.state.sq.tail) :
      Step storeBuffer s (s.setState s.submitting.state.clearNeedWakeup .polling)
  | rouse {s : Polling} (hpoller : s.poller = .woken) :
      Step storeBuffer s (s.setState s.submitting.state.clearNeedWakeup .polling)

end Polling

def polling (storeBuffer : Bool) : System Polling where
  initial s := submitting.initial s.submitting ∧ s.submitting.state.sqPollEnabled = true ∧
    s.caller = .out ∧ s.buffered = false ∧ s.poller = .polling
  step := Polling.Step storeBuffer

namespace Polling

/-- The steps of the call in progress alone lead to a state in which the thread is awake. -/
def WakeupDue (s : Polling) : Prop :=
  ∃ t, ReflTransGen CallerStep s t ∧ t.poller = .woken

/-! ### Without a store buffer -/

/-- The flag is set while the thread does not poll, and a thread that sleeps while there are entries
meets a call that has yet to load the flag, or has loaded it and is about to wake the thread. -/
structure Watched (s : Polling) : Prop where
  flushed : s.buffered = false
  flag : s.poller ≠ .polling → s.submitting.state.needsWakeup = true
  due : s.poller = .asleep → s.submitting.state.sq.head ≠ s.submitting.state.sq.tail →
    s.caller = .loading ∨ s.caller = .waking

/-- A call that has not stored the tail leaves the counters and the flag alone. -/
theorem call_frame {s t : Submitting} (h : Submitting.Step s t) (hphase : t.phase ≠ s.phase)
    (haccepted : t.accepted = s.accepted) :
    t.state.sq.head = s.state.sq.head ∧ t.state.sq.tail = s.state.sq.tail ∧
      t.state.sq.flags = s.state.sq.flags := by
  cases h with
  | loadTail | loadHead | refuse | accept => exact ⟨rfl, rfl, rfl⟩
  | write request tail write writes => cases write <;> exact ⟨rfl, rfl, rfl⟩
  | publish => simp at haccepted
  | consume => exact absurd rfl hphase

theorem watched_callerStep {s t : Polling} (h : s.Watched) (hst : CallerStep s t) : t.Watched := by
  obtain ⟨hflushed, hflag, hdue⟩ := h
  cases hst with
  | flush request tail hphase hbuffered => simp [hflushed] at hbuffered
  | loadFlags hcaller =>
    refine ⟨hflushed, hflag, fun hasleep hwork => .inr ?_⟩
    have hasleep : s.poller = .asleep := hasleep
    exact if_pos (hflag (by simp [hasleep]))
  | wake hcaller =>
    refine ⟨hflushed, fun hpoller => hflag fun hpolling => ?_, fun hasleep => ?_⟩
    · simp [hpolling, Poller.wake] at hpoller
    · cases hpoller : s.poller <;> simp [hpoller, Poller.wake] at hasleep
  | unlock hcaller =>
    refine ⟨hflushed, hflag, fun hasleep hwork => ?_⟩
    simp [hcaller] at hdue
    exact absurd (hdue hasleep) hwork

theorem watched_step {s t : Polling} (h : s.Watched) (hst : Step false s t) : t.Watched := by
  cases hst with
  | call t hcaller hst hphase haccepted =>
    obtain ⟨hhead, htail, hflags⟩ := call_frame hst hphase haccepted
    refine ⟨h.flushed, fun hpoller => ?_, fun hasleep => ?_⟩
    · simpa [State.needsWakeup, hflags] using h.flag hpoller
    · simpa [hhead, htail] using h.due hasleep
  | publish request tail hcaller hphase => exact ⟨h.flushed, h.flag, fun _ _ => .inl rfl⟩
  | store request tail hbuffer => contradiction
  | caller hst => exact watched_callerStep h hst
  | consume n hpoller =>
    exact ⟨h.flushed, fun hnot => absurd hpoller hnot, fun hasleep => by simp [hpoller] at hasleep⟩
  | idle hpoller hempty =>
    exact ⟨h.flushed, fun _ => State.needsWakeup_setNeedWakeup _, by simp [setState]⟩
  | sleep hpoller hempty =>
    exact ⟨h.flushed, fun _ => h.flag (by simp [hpoller]), fun _ hwork => absurd hempty hwork⟩
  | stay | rouse => exact ⟨h.flushed, by simp [setState], by simp [setState]⟩

theorem watched_of_reachable {s : Polling} (h : Reachable (polling false) s) : s.Watched := by
  refine h.invariant ?_ fun s t _ hs hst => watched_step hs hst
  rintro s ⟨-, -, -, hbuffered, hpoller⟩
  exact ⟨hbuffered, by simp [hpoller], by simp [hpoller]⟩

theorem Watched.wakeupDue {s : Polling} (h : s.Watched) (hasleep : s.poller = .asleep)
    (hwork : s.submitting.state.sq.head ≠ s.submitting.state.sq.tail) : s.WakeupDue := by
  have hwake : ∀ {t : Polling}, t.caller = .waking → t.buffered = false → t.poller = .asleep →
      t.WakeupDue := fun hcaller hflushed hpoller =>
    ⟨_, .single (.wake hcaller hflushed), by simp [hpoller, Poller.wake]⟩
  obtain hcaller | hcaller := h.due hasleep hwork
  · have hload := CallerStep.loadFlags hcaller
    rw [h.flag (by simp [hasleep]), if_pos rfl] at hload
    obtain ⟨t, hrun, hpoller⟩ := hwake (t := { s with caller := .waking }) rfl h.flushed hasleep
    exact ⟨t, hrun.head hload, hpoller⟩
  · exact hwake hcaller h.flushed hasleep

/-! ### With a store buffer -/

theorem run_writes (storeBuffer : Bool) (s : Polling) (hcaller : s.caller = .out)
    (request : Request) (tail : BitVec 32) (writes : List Write) :
    ReflTransGen (Step storeBuffer)
      { s with submitting.phase := .writing request tail writes }
      { s with
        submitting.state := s.submitting.state.writeAll writes
        submitting.phase := .writing request tail [] } := by
  induction writes generalizing s with
  | nil => exact .refl
  | cons write writes ih =>
    have hwrite : Step storeBuffer
        { s with submitting.phase := .writing request tail (write :: writes) } _ :=
      .call _ hcaller (.write request tail write writes rfl) (by simp) rfl
    exact .head hwrite (ih { s with submitting.state := s.submitting.state.write write } hcaller)

/-- The thread looks at the ring for the last time while the tail is still in the buffer of a call
that has already loaded the flag. -/
theorem exists_lost_wakeup : ∃ s, Reachable (polling true) s ∧ s.poller = .asleep ∧
    s.submitting.state.sq.head ≠ s.submitting.state.sq.tail ∧ s.caller = .out ∧
    s.buffered = false := by
  let request : Request := .raw { opcode := .nop } 0#64
  have h : Reachable (polling true)
      { submitting := { state := { State.sample with sqPollEnabled := true } } } :=
    .initial ⟨⟨rfl, ⟨3, by decide, rfl, rfl⟩, rfl, rfl, rfl⟩, rfl, rfl, rfl, rfl⟩
  have h := h.step (.call _ rfl (.loadTail request rfl) (by simp) rfl)
  have h := h.step (.call _ rfl (.loadHead request _ rfl) (by simp) rfl)
  have h := h.step (.call _ rfl (.accept request _ _ rfl (by decide)) (by simp) rfl)
  have h := h.trans (run_writes true
    { submitting := { state := { State.sample with sqPollEnabled := true } } } rfl request _ _)
  have h := h.step (.store request _ rfl rfl rfl)
  have h := h.step (.caller (.loadFlags rfl))
  have h := h.step (.idle rfl rfl)
  have h := h.step (.sleep rfl rfl)
  have h := h.step (.caller (.flush request _ rfl rfl))
  have h := h.step (.caller (.unlock (by decide +kernel) rfl))
  exact ⟨_, h, rfl, by decide +kernel, rfl, rfl⟩

theorem not_wakeupDue {s : Polling} (hcaller : s.caller = .out) (hflushed : s.buffered = false)
    (hasleep : s.poller = .asleep) : ¬s.WakeupDue := by
  rintro ⟨t, hrun, hwoken⟩
  obtain rfl | ⟨u, hst, -⟩ := hrun.cases_head
  · simp [hasleep] at hwoken
  · cases hst <;> simp_all

end Polling

/-- In every interleaving a thread that sleeps while entries wait is about to be woken by the call
that is in progress, if and only if stores are not buffered. -/
theorem sqPoll_wakeups_iff (storeBuffer : Bool) :
    (∀ s, Reachable (polling storeBuffer) s → s.poller = .asleep →
        s.submitting.state.sq.head ≠ s.submitting.state.sq.tail → s.WakeupDue) ↔
      storeBuffer = false := by
  constructor
  · intro h
    cases storeBuffer with
    | false => rfl
    | true =>
      obtain ⟨s, hs, hasleep, hwork, hcaller, hflushed⟩ := Polling.exists_lost_wakeup
      exact absurd (h s hs hasleep hwork) (Polling.not_wakeupDue hcaller hflushed hasleep)
  · rintro rfl s hs hasleep hwork
    exact (Polling.watched_of_reachable hs).wakeupDue hasleep hwork

end StorageEngine.Io
