import StorageEngine.Queue.Serial

/-! A lone client.  Writers that meet arm group commit, and then the next write goes to the writer
thread, which waits for others to join it.  When nobody does, the flag is down again. -/

namespace StorageEngine

open Transition

namespace WriteQueue

/-- On an empty queue only the flag sends a writer to the writer thread, and it stays as it is. -/
theorem enqueue_empty {queue : WriteQueue} (hwriting : queue.writing = false)
    (hwriters : queue.writers = []) (writer : Writer) :
    (queue.enqueue writer).2 = queue.groupCommitArmed ∧
      (queue.enqueue writer).1.groupCommitArmed = queue.groupCommitArmed := by
  cases harmed : queue.groupCommitArmed <;> simp [enqueue, hwriting, hwriters, harmed]

theorem armed_begin (queue : WriteQueue) : queue.begin.1.groupCommitArmed = false := by
  unfold begin
  dsimp only
  split
  · rfl
  · simp_all

theorem armed_finish {queue : WriteQueue} {group : List Writer} (h : group.length ≤ 1) :
    (queue.finish group).groupCommitArmed = queue.groupCommitArmed := by
  simp [finish, Nat.not_lt.mpr h]

end WriteQueue

namespace GroupCommit

/-- A run in which nobody writes before all earlier writers have their status; the number is that of
the writes that went to the writer thread. -/
inductive LoneRun (host : Host) (start : GroupCommit) : Nat → GroupCommit → Prop
  | start : LoneRun host start 0 start
  | writes {n : Nat} {s t : GroupCommit} (writer : Writer) (h : LoneRun host start n s)
    (hdone : s.finishedWriters = s.arrivals) (hstep : Step host s t)
    (harrives : t.arrivals = s.arrivals ++ [writer]) :
    LoneRun host start (n + (s.queue.enqueue writer).2.toNat) t
  | other {n : Nat} {s t : GroupCommit} (h : LoneRun host start n s) (hstep : Step host s t)
    (hsame : t.arrivals = s.arrivals) : LoneRun host start n t

theorem LoneRun.reachable {host : Host} {start s : GroupCommit} {n : Nat}
    (h : LoneRun host start n s) (hstart : Reachable (groupCommit host) start) :
    Reachable (groupCommit host) s := by
  induction h with
  | start => exact hstart
  | writes _ _ _ hstep _ ih => exact ih.step hstep
  | other _ hstep _ ih => exact ih.step hstep

/-- At most one writer is unfinished, and there is one when the writer thread is at work.  The flag
is as it was until somebody writes, and then up only until the writer thread takes notice. -/
structure Lone (start : GroupCommit) (n : Nat) (s : GroupCommit) : Prop where
  one : s.arrivals.length ≤ s.finishedWriters.length + 1
  busy : s.thread.busy = 1 → s.finishedWriters.length < s.arrivals.length
  grown : start.arrivals.length ≤ s.arrivals.length
  fresh : s.arrivals.length = start.arrivals.length →
    s.arrivals.length ≤ s.finishedWriters.length ∧ n = 0 ∧
      s.queue.groupCommitArmed = start.queue.groupCommitArmed
  later : start.arrivals.length < s.arrivals.length →
    n = start.queue.groupCommitArmed.toNat ∧
      (s.queue.groupCommitArmed = true → s.queue.writers ≠ [] ∧ s.thread.busy = 0)

variable {host : Host} {n : Nat} {start s t : GroupCommit}

theorem InOrder.length_arrivals (h : InOrder s) : s.arrivals.length =
    s.finishedWriters.length + s.inProgress.flatten.length + s.queue.writers.length := by
  rw [h.order, List.length_append, List.length_append]

theorem length_inline_le (s : GroupCommit) : s.inline.length ≤ s.inProgress.flatten.length := by
  simp [inProgress, calls, Function.comp_def]

theorem length_group_le {group : List Writer} {call : Call}
    (hthread : s.thread = .writing group call) :
    group.length ≤ s.inProgress.flatten.length := by
  simp [inProgress, calls, hthread, Phase.calls]

theorem busy_le_one (phase : Phase) : phase.busy ≤ 1 := by
  cases phase <;> simp [Phase.busy]

/-- When all writers are finished, the queue is at rest. -/
theorem Lone.rest (h : Lone start n s) (horder : InOrder s)
    (hdone : s.finishedWriters = s.arrivals) :
    s.queue.writing = false ∧ s.queue.writers = [] ∧ s.thread.busy = 0 := by
  have hlength := horder.length_arrivals
  have hinline := length_inline_le s
  have hexclusive := horder.exclusive
  rw [hdone] at hlength
  have hbusy : s.thread.busy ≠ 1 := by
    intro hbusy
    have := h.busy hbusy
    rw [hdone] at this
    exact Nat.lt_irrefl _ this
  have := busy_le_one s.thread
  refine ⟨Bool.toNat_eq_zero.mp (by omega), List.length_eq_zero_iff.mp (by omega), by omega⟩

theorem Step.enters {writer : Writer} (hstep : Step host s t)
    (harrives : t.arrivals = s.arrivals ++ [writer]) :
    t.queue = (s.queue.enqueue writer).1 ∧ t.finished = s.finished ∧ t.thread = s.thread := by
  cases hstep with
  | enterInline other | enterQueued other =>
    obtain rfl : other = writer := by simpa using harrives
    exact ⟨rfl, rfl, rfl⟩
  | _ => simp [call, publish, GroupCommit.collect] at harrives

/-- A lone writer goes to the writer thread only as the first one, and only if the flag was up. -/
theorem Lone.writes (h : Lone start n s) (horder : InOrder s)
    (hdone : s.finishedWriters = s.arrivals) (hstep : Step host s t) {writer : Writer}
    (harrives : t.arrivals = s.arrivals ++ [writer]) :
    Lone start (n + (s.queue.enqueue writer).2.toNat) t := by
  obtain ⟨hwriting, hwriters, hbusy⟩ := h.rest horder hdone
  obtain ⟨hqueued, harmed⟩ := WriteQueue.enqueue_empty hwriting hwriters writer
  obtain ⟨hqueue, hfinished, hthread⟩ := hstep.enters harrives
  have hfinishedWriters : t.finishedWriters = s.arrivals := by
    rw [← hdone, finishedWriters, finishedWriters, hfinished]
  have hlength : t.arrivals.length = s.arrivals.length + 1 := by simp [harrives]
  have hgrown := h.grown
  refine ⟨?_, fun _ => ?_, by omega, fun hsame => by omega, fun _ => ⟨?_, fun hup => ?_⟩⟩
  · rw [hlength, hfinishedWriters]
  · rw [hlength, hfinishedWriters]
    exact Nat.lt_succ_self _
  · rw [hqueued]
    rcases Nat.eq_or_lt_of_le hgrown with hfirst | hlater
    · obtain ⟨-, hn, hflag⟩ := h.fresh hfirst.symm
      rw [hn, hflag, Nat.zero_add]
    · obtain ⟨hn, hflag⟩ := h.later hlater
      have hdown : s.queue.groupCommitArmed = false := by
        by_contra hup
        exact (hflag (by simpa using hup)).1 hwriters
      rw [hn, hdown, Bool.toNat_false, Nat.add_zero]
  · rw [hqueue, harmed] at hup
    obtain ⟨armed, hqueue'⟩ := WriteQueue.enqueue_queued (hqueued.trans hup)
    rw [hqueue, hqueue', hthread]
    exact ⟨by simp, hbusy⟩

theorem Lone.keep (h : Lone start n s) (harrivals : t.arrivals = s.arrivals)
    (hfinished : t.finished = s.finished) (hwriters : t.queue.writers = s.queue.writers)
    (hflag : t.queue.groupCommitArmed = s.queue.groupCommitArmed)
    (hbusy : t.thread.busy = s.thread.busy) : Lone start n t := by
  have hfinishedWriters : t.finishedWriters = s.finishedWriters := by
    rw [finishedWriters, finishedWriters, hfinished]
  constructor
  · rw [harrivals, hfinishedWriters]; exact h.one
  · rw [harrivals, hfinishedWriters, hbusy]; exact h.busy
  · rw [harrivals]; exact h.grown
  · rw [harrivals, hfinishedWriters, hflag]; exact h.fresh
  · rw [harrivals, hwriters, hflag, hbusy]; exact h.later

/-- A writer that is not finished is a later one. -/
theorem Lone.later_of_pending (h : Lone start n s)
    (hpending : s.finishedWriters.length < s.arrivals.length) :
    start.arrivals.length < s.arrivals.length := by
  have hgrown := h.grown
  by_contra hfirst
  have := (h.fresh (by omega)).1
  omega

theorem Lone.flag_down (h : Lone start n s) (hbusy : s.thread.busy = 1) :
    s.queue.groupCommitArmed = false := by
  by_contra hup
  have := ((h.later (h.later_of_pending (h.busy hbusy))).2 (by simpa using hup)).2
  omega

/-- The writer thread is at work on the one writer, with the flag down. -/
theorem Lone.works (h : Lone start n s)
    (hpending : s.finishedWriters.length < s.arrivals.length) (harrivals : t.arrivals = s.arrivals)
    (hfinished : t.finished = s.finished) (hflag : t.queue.groupCommitArmed = false) :
    Lone start n t := by
  have hfinishedWriters : t.finishedWriters = s.finishedWriters := by
    rw [finishedWriters, finishedWriters, hfinished]
  have hlater := h.later_of_pending hpending
  rw [← harrivals] at hlater
  refine ⟨?_, fun _ => ?_, hlater.le, fun hfirst => ?_, fun _ => ⟨?_, fun hup => ?_⟩⟩
  · rw [harrivals, hfinishedWriters]; exact h.one
  · rw [harrivals, hfinishedWriters]; exact hpending
  · omega
  · exact (h.later (h.later_of_pending hpending)).1
  · rw [hflag] at hup
    contradiction

theorem InOrder.pending_of_wakes (h : InOrder s) (hwakes : s.queue.wakes = true)
    (hstays : s.queue.exits = false) : s.finishedWriters.length < s.arrivals.length := by
  have hlength := h.length_arrivals
  have hwriters := List.length_pos_of_ne_nil (WriteQueue.writers_of_wakes hwakes hstays)
  omega

/-- A group is finished, and the flag stays as it is. -/
theorem Lone.finishes (h : Lone start n s) {group : List Writer} {status : Status}
    (harrivals : t.arrivals = s.arrivals) (hfinished : t.finished = s.finished ++ [(group, status)])
    (hwriters : t.queue.writers = s.queue.writers)
    (hflag : t.queue.groupCommitArmed = s.queue.groupCommitArmed) (hbusy : t.thread.busy = 0) :
    Lone start n t := by
  have hfinishedWriters : t.finishedWriters.length = s.finishedWriters.length + group.length := by
    simp [finishedWriters, hfinished]
  have hone := h.one
  refine ⟨by rw [harrivals]; omega, by omega, by rw [harrivals]; exact h.grown, ?_, ?_⟩
  · rw [harrivals, hflag]
    intro hfirst
    obtain ⟨hdone, hrest⟩ := h.fresh hfirst
    exact ⟨by omega, hrest⟩
  · rw [harrivals, hflag, hwriters]
    intro hlater
    obtain ⟨hn, hup⟩ := h.later hlater
    exact ⟨hn, fun hflag => ⟨(hup hflag).1, hbusy⟩⟩

theorem Lone.other (h : Lone start n s) (horder : InOrder s) (hstep : Step host s t)
    (hsame : t.arrivals = s.arrivals) : Lone start n t := by
  cases hstep with
  | enterInline | enterQueued => simp at hsame
  | inlineCall => exact h.keep rfl rfl rfl rfl rfl
  | inlineFinish writer status before after hinline =>
    exact h.finishes rfl rfl rfl rfl (horder.inline_alone hinline).2.2
  | inlineResume => exact h.keep rfl rfl rfl rfl rfl
  | wakeGather hthread hwakes hstays =>
    exact h.works (horder.pending_of_wakes hwakes hstays) rfl rfl (WriteQueue.armed_begin _)
  | wakeCollect hthread hwakes hstays =>
    exact h.works (horder.pending_of_wakes hwakes hstays) rfl rfl (WriteQueue.armed_begin _)
  | collect hthread =>
    have hbusy : s.thread.busy = 1 := by rw [hthread]; rfl
    exact h.works (h.busy hbusy) rfl rfl (h.flag_down hbusy)
  | threadCall io group hthread => exact h.keep rfl rfl rfl rfl (by rw [hthread]; rfl)
  | threadFinish group status hthread =>
    -- The group is the one writer, which does not arm group commit.
    have hgroup : group.length ≤ 1 := by
      have hlength := horder.length_arrivals
      have hle := length_group_le hthread
      have hone := h.one
      omega
    obtain ⟨armed, hqueue⟩ := s.queue.finish_eq group
    exact h.finishes rfl rfl (by simp [hqueue]) (WriteQueue.armed_finish hgroup) rfl
  | threadResume writer pending hthread => exact h.keep rfl rfl rfl rfl (by rw [hthread]; rfl)
  | threadLoop hthread => exact h.keep rfl rfl rfl rfl (by rw [hthread]; rfl)
  | threadExit hthread => exact h.keep rfl rfl rfl rfl (by rw [hthread]; rfl)
  | stop => exact h.keep rfl rfl rfl rfl rfl

theorem lone_of_run (hstart : Reachable (groupCommit host) start)
    (hwriting : start.queue.writing = false) (hwriters : start.queue.writers = [])
    (h : LoneRun host start n s) (hrun : s.queue.stopWriter = false) : Lone start n s := by
  induction h with
  | start =>
    have horder := (invariant_of_reachable hstart hrun).inOrder
    obtain ⟨hinline, hbusy⟩ := horder.quiet hwriting
    have hlength := horder.length_arrivals
    have hprogress : start.inProgress = [] := by
      simp [inProgress, calls, hinline, calls_of_not_busy hbusy]
    simp only [hprogress, hwriters, List.flatten_nil, List.length_nil] at hlength
    exact ⟨by omega, by omega, le_rfl, fun _ => ⟨by omega, rfl, rfl⟩, by omega⟩
  | writes writer h hdone hstep harrives ih =>
    have hbefore := hstep.stopWriter hrun
    have horder := (invariant_of_reachable (h.reachable hstart) hbefore).inOrder
    exact (ih hbefore).writes horder hdone hstep harrives
  | other h hstep hsame ih =>
    have hbefore := hstep.stopWriter hrun
    have horder := (invariant_of_reachable (h.reachable hstart) hbefore).inOrder
    exact (ih hbefore).other horder hstep hsame

end GroupCommit

/-- A client that writes alone goes to the writer thread once if the writers before it armed group
commit, and never otherwise. -/
theorem lone_client_gathers_once (host : Host) {start t : GroupCommit} {n : Nat}
    (hstart : Reachable (groupCommit host) start) (hwriting : start.queue.writing = false)
    (hwriters : start.queue.writers = []) (hrun : GroupCommit.LoneRun host start n t)
    (hopen : t.queue.stopWriter = false) (hwrites : start.arrivals.length < t.arrivals.length) :
    n = start.queue.groupCommitArmed.toNat :=
  ((GroupCommit.lone_of_run hstart hwriting hwriters hrun hopen).later hwrites).1

open GroupCommit in
/-- Two writers that share a group arm group commit.  Of the two writes of the client after them the
first goes to the writer thread. -/
theorem lone_client_gathers_once_after_two :
    ∃ (start t : GroupCommit) (n : Nat), Reachable (groupCommit .sample) start ∧
      LoneRun .sample start n t ∧ start.queue.groupCommitArmed = true ∧
      t.arrivals.map Writer.id = start.arrivals.map Writer.id ++ [3, 4] ∧
      n = start.queue.groupCommitArmed.toNat := by
  have h := Reachable.initial (initial_empty .sample)
  have h := h.step (.enterInline ⟨0, .put .new [97] [49]⟩ (by decide) rfl rfl)
  have h := h.step (.enterQueued ⟨1, .put .new [98] [50]⟩ (by decide) rfl rfl)
  have h := h.step (.enterQueued ⟨2, .put .new [99] [51]⟩ (by decide) rfl rfl)
  have h := h.step (.inlineCall (.success 32) _ [] [] rfl)
  have h := h.step (.inlineFinish _ _ [] [] rfl)
  have h := h.step (.wakeGather rfl rfl rfl rfl)
  have h := h.step (.collect rfl)
  have h := h.step (.threadCall (.success 0) _ rfl)
  have h := h.step (.threadFinish _ _ rfl)
  have h := h.step (.threadResume _ _ rfl)
  have h := h.step (.threadResume _ _ rfl)
  have h := h.step (.threadLoop rfl)
  have hstart {s : GroupCommit} (_ : Reachable (groupCommit .sample) s) :
    LoneRun .sample s 0 s := .start
  have hlone := (hstart h).writes ⟨3, .put .new [97] [52]⟩ rfl
    (.enterQueued _ (by decide) rfl rfl) rfl
  have hlone := hlone.other (.wakeGather rfl rfl rfl rfl) rfl
  have hlone := hlone.other (.collect rfl) rfl
  have hlone := hlone.other (.threadCall (.success 0) _ rfl) rfl
  have hlone := hlone.other (.threadFinish _ _ rfl) rfl
  have hlone := hlone.writes ⟨4, .put .new [98] [53]⟩ rfl
    (.enterInline _ (by decide) rfl rfl) rfl
  exact ⟨_, _, _, h, hlone, rfl, rfl,
    lone_client_gathers_once .sample h rfl rfl hlone rfl (by decide)⟩

end StorageEngine
