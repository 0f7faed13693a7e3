import StorageEngine.Queue.Serial

/-! The end of a database.  `~DB` sets `stopWriter_` and waits for the writer thread, which then no
longer looks at `writing_` before it takes a group or returns.  Nobody calls a method of a database
that is being destroyed, but calls that began before may still be in progress. -/

namespace StorageEngine

open Relation Transition

namespace GroupCommit

def stopped (s : GroupCommit) : GroupCommit :=
  { s with queue := { s.queue with stopWriter := true } }

/-- A step after which no further writer has entered. -/
def Drain (host : Host) (s t : GroupCommit) : Prop := Step host s t ∧ t.arrivals = s.arrivals

/-- However a request to stop is carried out, no two groups are ever in progress together, and the
writer thread leaves no group in progress and no queued writer behind. -/
structure ShutsDown (host : Host) (s : GroupCommit) : Prop where
  exclusive : ∀ t, ReflTransGen (Drain host) s.stopped t → t.inProgress.length ≤ 1
  complete : ∀ t, ReflTransGen (Drain host) s.stopped t → t.thread = .exited →
    t.inProgress = [] ∧ t.queue.writers = [] ∧
      (t.resumed.map Prod.fst ++ t.returning).Perm t.arrivals

/-! ### Without an inline group -/

theorem inline_of_drain {host : Host} {s t : GroupCommit} (h : s.inline = [])
    (hst : Drain host s t) : t.inline = [] := by
  obtain ⟨hstep, harrivals⟩ := hst
  cases hstep with
  | enterInline => simp at harrivals
  | inlineCall io writer before after hinline => simp [h] at hinline
  | inlineFinish writer status before after hinline => simp [h] at hinline
  | _ => exact h

/-- The writer thread returns only when the queue is empty, and nothing enters the queue after
that. -/
theorem writers_of_exited {host : Host} {s t : GroupCommit} (hst : Drain host s t)
    (h : s.thread = .exited → s.queue.writers = []) (hexited : t.thread = .exited) :
    t.queue.writers = [] := by
  obtain ⟨hstep, harrivals⟩ := hst
  cases hstep with
  | enterInline => simp at harrivals
  | enterQueued => simp at harrivals
  | threadExit hthread hexits =>
    simp only [WriteQueue.exits, Bool.and_eq_true, List.isEmpty_iff] at hexits
    exact hexits.2
  | inlineCall => exact h hexited
  | inlineFinish => exact h hexited
  | inlineResume => exact h hexited
  | stop => exact h hexited
  | _ => simp [collect] at hexited

structure Draining (s : GroupCommit) : Prop where
  inline : s.inline = []
  inOrder : InOrder s
  delivered : Delivered s
  exited : s.thread = .exited → s.queue.writers = []

theorem draining_step {host : Host} {s t : GroupCommit} (h : Draining s) (hst : Drain host s t) :
    Draining t where
  inline := inline_of_drain h.inline hst
  inOrder := inOrder_step h.inOrder (fun _ => h.inline) hst.1
  delivered := delivered_step h.inOrder h.delivered hst.1.event
  exited := writers_of_exited hst h.exited

theorem Draining.complete {s : GroupCommit} (h : Draining s) (hexited : s.thread = .exited) :
    s.inProgress = [] ∧ s.queue.writers = [] ∧
      (s.resumed.map Prod.fst ++ s.returning).Perm s.arrivals := by
  have hidle : s.inProgress = [] := by
    simp [inProgress, calls, h.inline, hexited, Phase.calls]
  have hwriters := h.exited hexited
  refine ⟨hidle, hwriters, ?_⟩
  have harrivals := h.inOrder.order
  rw [hidle, hwriters, List.flatten_nil, List.append_nil, List.append_nil] at harrivals
  rw [harrivals]
  simpa [waiting, hexited, Phase.pending] using h.delivered.released

/-! ### With an inline group -/

theorem stopWriter_of_exited {host : Host} {s : GroupCommit} (h : Reachable (groupCommit host) s) :
    s.thread = .exited → s.queue.stopWriter = true := by
  refine h.invariant (p := fun s => s.thread = .exited → s.queue.stopWriter = true) ?_ ?_
  · rintro s ⟨db, file, committed, rest, -, rfl⟩ hexited
    contradiction
  · intro s t _ hs hst hexited
    by_contra hrun
    rw [Bool.not_eq_true] at hrun
    have hbefore := Step.stopWriter hst hrun
    cases hst with
    | threadExit hthread hexits => simp [WriteQueue.exits, hbefore] at hexits
    | enterInline => simp [hs hexited] at hbefore
    | enterQueued => simp [hs hexited] at hbefore
    | inlineCall => simp [hs hexited] at hbefore
    | inlineFinish => simp [hs hexited] at hbefore
    | inlineResume => simp [hs hexited] at hbefore
    | stop => contradiction
    | _ => simp [collect] at hexited

/-- The writer thread can go back to its first wait while the clients stand still. -/
theorem exists_waiting (host : Host) (pending : List Writer) {s : GroupCommit}
    (h : s.thread = .resuming pending) :
    ∃ t, ReflTransGen (Drain host) s t ∧ t.thread = .waiting ∧ t.queue = s.queue ∧
      t.inline = s.inline := by
  induction pending generalizing s with
  | nil => exact ⟨_, .single ⟨.threadLoop h, rfl⟩, rfl, rfl, rfl⟩
  | cons writer pending ih =>
    obtain ⟨t, hst, hthread, hqueue, hinline⟩ := ih (s := { s with
      thread := .resuming pending
      resumed := s.resumed ++ [(writer, s.status writer.id)] }) rfl
    exact ⟨t, hst.head ⟨.threadResume writer pending h, rfl⟩, hthread, hqueue, hinline⟩

/-- When it is told to stop, the waiting thread takes the queued writers for its next group. -/
theorem exists_started {host : Host} {s : GroupCommit} (hthread : s.thread = .waiting)
    (hstop : s.queue.stopWriter = true) (hwriters : s.queue.writers ≠ []) :
    ∃ t group, ReflTransGen (Drain host) s t ∧ t.thread = .writing group .started ∧
      t.inline = s.inline := by
  have hwakes : s.queue.wakes = true := by simp [WriteQueue.wakes, hstop]
  have hstays : s.queue.exits = false := by simp [WriteQueue.exits, hwriters]
  cases hbegin : s.queue.begin.2 with
  | false =>
    exact ⟨_, _, .single ⟨.wakeCollect hthread hwakes hstays hbegin, rfl⟩, rfl, rfl⟩
  | true =>
    have hgather : Drain host s { s with queue := s.queue.begin.1, thread := .gathering } :=
      ⟨.wakeGather hthread hwakes hstays hbegin, rfl⟩
    exact ⟨_, _, (ReflTransGen.single hgather).tail ⟨.collect rfl, rfl⟩, rfl, rfl⟩

theorem not_shutsDown {host : Host} {s : GroupCommit} (h : InOrder s)
    (hrun : s.thread ≠ .exited) (hinline : s.inline ≠ []) : ¬s.ShutsDown host := by
  intro hshut
  have hbusy : s.thread.busy = 0 := by
    have hexclusive := h.exclusive
    have := Bool.toNat_le s.queue.writing
    have := List.length_pos_of_ne_nil hinline
    omega
  obtain ⟨t, hst, hthread, hqueue, hsame⟩ : ∃ t, ReflTransGen (Drain host) s.stopped t ∧
      t.thread = .waiting ∧ t.queue = s.stopped.queue ∧ t.inline = s.inline := by
    cases hphase : s.thread with
    | waiting => exact ⟨s.stopped, .refl, hphase, rfl, rfl⟩
    | resuming pending => exact exists_waiting host pending (s := s.stopped) hphase
    | gathering => simp [hphase, Phase.busy] at hbusy
    | writing group call => simp [hphase, Phase.busy] at hbusy
    | exited => contradiction
  have hstop : t.queue.stopWriter = true := by rw [hqueue]; rfl
  by_cases hwriters : t.queue.writers = []
  · -- The thread returns and leaves the inline group behind.
    have hexits : t.queue.exits = true := by simp [WriteQueue.exits, hstop, hwriters]
    have hidle := (hshut.complete _ (hst.tail ⟨.threadExit hthread hexits, rfl⟩) rfl).1
    simp [inProgress, calls, hsame, hinline] at hidle
  · -- The thread starts a group beside the inline one.
    obtain ⟨u, group, htu, hphase, hinline'⟩ := exists_started hthread hstop hwriters
    have hone := hshut.exclusive u (hst.trans htu)
    have := List.length_pos_of_ne_nil hinline
    simp only [inProgress, calls, hphase, Phase.calls, hinline', hsame, List.map_append,
      List.length_append, List.length_map, List.length_singleton] at hone
    omega

end GroupCommit

open GroupCommit in
/-- A database shuts down in order if and only if no inline group is in progress when it is told to
stop. -/
theorem shutdown_in_order_iff (host : Host) (s : GroupCommit)
    (hs : Reachable (groupCommit host) s) (hrun : s.queue.stopWriter = false) :
    s.ShutsDown host ↔ s.inline = [] := by
  obtain ⟨hinOrder, hdelivered, -⟩ := invariant_of_reachable hs hrun
  have hnotExited : s.thread ≠ .exited := fun hexited => by
    simp [stopWriter_of_exited hs hexited] at hrun
  constructor
  · intro hshut
    by_contra hinline
    exact not_shutsDown hinOrder hnotExited hinline hshut
  · intro hinline
    have hstart : Draining s.stopped :=
      ⟨hinline, ⟨hinOrder.exclusive, hinOrder.order, hinOrder.fresh⟩,
        ⟨hdelivered.statuses, hdelivered.released, hdelivered.seen⟩,
        fun hexited => absurd hexited hnotExited⟩
    have hdraining : ∀ t, ReflTransGen (Drain host) s.stopped t → Draining t := by
      intro t hst
      induction hst with
      | refl => exact hstart
      | tail _ hst ih => exact draining_step ih hst
    exact ⟨fun t hst => (hdraining t hst).inOrder.inProgress_length_le,
      fun t hst hexited => (hdraining t hst).complete hexited⟩

open GroupCommit in
/-- The inline writer is finished, and another one waits for the writer thread. -/
theorem shutdown_in_order_one_queued :
    ∃ s : GroupCommit, Reachable (groupCommit .sample) s ∧ s.queue.stopWriter = false ∧
      s.queue.writers.map Writer.id = [1] ∧ s.ShutsDown .sample := by
  have h := Reachable.initial (initial_empty .sample)
  have h := h.step (.enterInline ⟨0, .put .new [97] [49]⟩ (by decide) rfl rfl)
  have h := h.step (.enterQueued ⟨1, .put .new [98] [50]⟩ (by decide) rfl rfl)
  have h := h.step (.inlineCall (.success 32) _ [] [] rfl)
  have h := h.step (.inlineFinish _ _ [] [] rfl)
  exact ⟨_, h, rfl, rfl, (shutdown_in_order_iff .sample _ h rfl).mpr rfl⟩

open GroupCommit in
/-- The database is told to stop while one writer is inside `writeGroup` and another is queued.  The
writer thread takes the queued one and calls `writeGroup` as well. -/
theorem shutdown_overlaps_inline_group :
    ∃ s t : GroupCommit, Reachable (groupCommit .sample) s ∧ s.queue.stopWriter = false ∧
      s.inline.map (fun client => client.1.id) = [0] ∧ s.queue.writers.map Writer.id = [1] ∧
      ReflTransGen (Drain .sample) s.stopped t ∧
      t.inProgress.map (fun group => group.map Writer.id) = [[0], [1]] := by
  have h := Reachable.initial (initial_empty .sample)
  have h := h.step (.enterInline ⟨0, .put .new [97] [49]⟩ (by decide) rfl rfl)
  have h := h.step (.enterQueued ⟨1, .put .new [98] [50]⟩ (by decide) rfl rfl)
  exact ⟨_, _, h, rfl, rfl, rfl, (ReflTransGen.single ⟨.wakeGather rfl rfl rfl rfl, rfl⟩).tail
    ⟨.collect rfl, rfl⟩, rfl⟩

end StorageEngine
