import Mathlib.Data.Fintype.EquivFin
import StorageEngine.Queue.Serial

/-! Continuations that write.  `writerLoop` resumes the coroutines of a finished group on its own
thread, and such a coroutine may call `Put`, `Delete`, or `Write`, which wait for their status.  A
write that is queued there waits for a thread that waits for the write. -/

namespace StorageEngine

open Transition

/-- What the writer thread does inside a continuation: nothing, since it is in none; it runs code of
the continuation; it commits a write of its own inline; it waits for a write that it has queued. -/
inductive Nesting where
  | outside
  | running
  | inline (writer : Writer)
  | waiting (writer : Writer)

structure NestedCommit where
  base : GroupCommit
  nesting : Nesting := .outside

namespace NestedCommit

/-- The writer thread is blocked, waiting for a writer that only it can take from the queue. -/
def Blocked (s : NestedCommit) : Prop :=
  ∃ writer, s.nesting = .waiting writer ∧ writer ∈ s.base.queue.writers

/-- The steps of the queue together with those of continuations, which write in states where
`allowed` holds.  The steps of a client leave the writer thread where it is; those of the thread
wait until the continuation has returned. -/
inductive Step (host : Host) (allowed : GroupCommit → Prop) : NestedCommit → NestedCommit → Prop
  | client {s : NestedCommit} {t : GroupCommit} (hstep : GroupCommit.Step host s.base t)
      (hthread : t.thread = s.base.thread) : Step host allowed s { s with base := t }
  | thread {s : NestedCommit} {t : GroupCommit} (hstep : GroupCommit.Step host s.base t)
      (hthread : t.thread ≠ s.base.thread) (hresumed : t.resumed = s.base.resumed)
      (houtside : s.nesting = .outside) : Step host allowed s { s with base := t }
  | resume {s : NestedCommit} (writer : Writer) (pending : List Writer)
      (hthread : s.base.thread = .resuming (writer :: pending)) (houtside : s.nesting = .outside) :
      Step host allowed s
        { base := { s.base with
            thread := .resuming pending
            resumed := s.base.resumed ++ [(writer, s.base.status writer.id)] }
          nesting := .running }
  | writeInline {s : NestedCommit} (writer : Writer) (hrunning : s.nesting = .running)
      (hallowed : allowed s.base) (hnew : writer.id ∉ s.base.arrivals.map Writer.id)
      (hbatch : writer.batch.empty = false) (henqueue : (s.base.queue.enqueue writer).2 = false) :
      Step host allowed s
        { base := { s.base with
            queue := (s.base.queue.enqueue writer).1
            inline := s.base.inline ++ [(writer, .started)]
            arrivals := s.base.arrivals ++ [writer] }
          nesting := .inline writer }
  | writeQueued {s : NestedCommit} (writer : Writer) (hrunning : s.nesting = .running)
      (hallowed : allowed s.base) (hnew : writer.id ∉ s.base.arrivals.map Writer.id)
      (hbatch : writer.batch.empty = false) (henqueue : (s.base.queue.enqueue writer).2 = true) :
      Step host allowed s
        { base := { s.base with
            queue := (s.base.queue.enqueue writer).1
            arrivals := s.base.arrivals ++ [writer] }
          nesting := .waiting writer }
  | written {s : NestedCommit} (writer : Writer)
      (hnesting : s.nesting = .inline writer ∨ s.nesting = .waiting writer)
      (hresumed : writer ∈ s.base.resumed.map Prod.fst) :
      Step host allowed s { s with nesting := .running }
  | leave {s : NestedCommit} (hrunning : s.nesting = .running) :
      Step host allowed s { s with nesting := .outside }

end NestedCommit

def nestedCommit (host : Host) (allowed : GroupCommit → Prop) : System NestedCommit where
  initial s := (groupCommit host).initial s.base ∧ s.nesting = .outside
  step := NestedCommit.Step host allowed

/-! ### A blocked thread stays blocked -/

namespace GroupCommit

/-- The writers that have entered the queue, wherever they are now. -/
def entered (s : GroupCommit) : List Writer :=
  s.queue.writers ++ s.inProgress.flatten ++ s.waiting ++ s.resumed.map Prod.fst

theorem entered_step {host : Host} {s t : GroupCommit} (h : s.entered ⊆ s.arrivals)
    (hstep : Step host s t) : t.entered ⊆ t.arrivals := by
  simp only [entered, inProgress, calls, waiting] at h ⊢
  cases hstep with
  | enterInline writer hnew hbatch henqueue =>
    rcases WriteQueue.enqueue_inline henqueue with ⟨-, -, hqueue⟩
    simp only [hqueue]
    grind
  | enterQueued writer hnew hbatch henqueue =>
    rcases WriteQueue.enqueue_queued henqueue with ⟨armed, hqueue⟩
    simp only [hqueue]
    grind
  | inlineCall io writer before after hinline =>
    simp only [call, hinline] at h ⊢
    grind
  | inlineFinish writer status before after hinline =>
    simp only [publish, hinline] at h ⊢
    grind
  | inlineResume writer before after hreturning =>
    simp only [hreturning] at h ⊢
    grind
  | wakeGather hthread hwakes hstays hbegin =>
    rcases s.queue.begin_eq with ⟨armed, hqueue⟩
    simp only [hqueue, hthread, Phase.calls, Phase.pending] at h ⊢
    exact h
  | wakeCollect hthread hwakes hstays hbegin =>
    rcases s.queue.begin_eq with ⟨armed, hqueue⟩
    simp only [collect, hqueue, hthread, Phase.calls, Phase.pending, WriteQueue.drain_eq] at h ⊢
    grind
  | collect hthread =>
    simp only [GroupCommit.collect, hthread, Phase.calls, Phase.pending, WriteQueue.drain_eq] at h ⊢
    grind
  | threadCall io group hthread =>
    simp only [call, hthread, Phase.calls, Phase.pending] at h ⊢
    grind
  | threadFinish group status hthread =>
    rcases s.queue.finish_eq group with ⟨armed, hqueue⟩
    simp only [publish, hqueue, hthread, Phase.calls, Phase.pending] at h ⊢
    grind
  | threadResume writer pending hthread =>
    simp only [hthread, Phase.calls, Phase.pending] at h ⊢
    grind
  | threadLoop hthread => simpa [hthread, Phase.calls, Phase.pending] using h
  | threadExit hthread hexits => simpa [hthread, Phase.calls, Phase.pending] using h
  | stop => exact h

/-- The writer is in the queue and nowhere else. -/
structure Queued (s : GroupCommit) (writer : Writer) : Prop where
  mem : writer ∈ s.queue.writers
  arrived : writer.id ∈ s.arrivals.map Writer.id
  fresh : writer.id ∉ (s.inline.map Prod.fst ++ s.returning ++ s.resumed.map Prod.fst).map Writer.id

/-- Only the writer thread takes a writer from the queue. -/
theorem queued_step {host : Host} {s t : GroupCommit} {writer : Writer} (h : s.Queued writer)
    (hstep : Step host s t) (hsame : t.thread = s.thread) : t.Queued writer := by
  rcases h with ⟨hmem, harrived, hfresh⟩
  cases hstep with
  | enterInline other hnew hbatch henqueue =>
    rcases WriteQueue.enqueue_inline henqueue with ⟨-, -, hqueue⟩
    exact ⟨by simpa [hqueue] using hmem, by grind, by grind⟩
  | enterQueued other hnew hbatch henqueue =>
    rcases WriteQueue.enqueue_queued henqueue with ⟨armed, hqueue⟩
    exact ⟨by simp [hqueue, hmem], by grind, by grind⟩
  | inlineCall io other before after hinline =>
    rw [hinline] at hfresh
    exact ⟨hmem, harrived, by simp only [call]; grind⟩
  | inlineFinish other status before after hinline =>
    rw [hinline] at hfresh
    exact ⟨hmem, harrived, by simp only [publish]; grind⟩
  | inlineResume other before after hreturning =>
    rw [hreturning] at hfresh
    exact ⟨hmem, harrived, by grind⟩
  | stop => exact ⟨hmem, harrived, hfresh⟩
  | wakeGather hthread => simp [hthread] at hsame
  | wakeCollect hthread => simp [collect, hthread] at hsame
  | collect hthread => simp [GroupCommit.collect, hthread] at hsame
  | threadCall io group hthread => simp [hthread] at hsame
  | threadFinish group status hthread => simp [hthread] at hsame
  | threadResume other pending hthread => simp [hthread] at hsame
  | threadLoop hthread => simp [hthread] at hsame
  | threadExit hthread => simp [hthread] at hsame

end GroupCommit

namespace NestedCommit

variable {host : Host} {allowed : GroupCommit → Prop}

/-- While the thread waits inside a continuation only clients take steps. -/
theorem waiting_step {s t : NestedCommit} {writer : Writer} (hwaiting : s.nesting = .waiting writer)
    (h : s.base.Queued writer) (hst : Step host allowed s t) :
    t.nesting = .waiting writer ∧ t.base.Queued writer := by
  cases hst with
  | client hstep hthread => exact ⟨hwaiting, GroupCommit.queued_step h hstep hthread⟩
  | written other hnesting hresumed =>
    obtain rfl : writer = other := by simpa [hwaiting] using hnesting
    have := h.fresh
    simp only [List.map_append, List.mem_append, not_or] at this
    exact absurd (List.mem_map_of_mem hresumed) this.2
  | thread hstep hthread hresumed houtside => simp [hwaiting] at houtside
  | resume other pending hthread houtside => simp [hwaiting] at houtside
  | writeInline other hrunning => simp [hwaiting] at hrunning
  | writeQueued other hrunning => simp [hwaiting] at hrunning
  | leave hrunning => simp [hwaiting] at hrunning

theorem entered_of_reachable {s : NestedCommit} (h : Reachable (nestedCommit host allowed) s) :
    s.base.entered ⊆ s.base.arrivals := by
  refine h.invariant (p := fun s => s.base.entered ⊆ s.base.arrivals) ?_ ?_
  · rintro ⟨base, nesting⟩ ⟨⟨db, file, committed, rest, -, rfl⟩, -⟩
    simp [GroupCommit.entered, GroupCommit.inProgress, GroupCommit.calls, GroupCommit.waiting,
      Phase.calls, Phase.pending]
  · intro s t hs hentered hst
    cases hst with
    | client hstep hthread => exact GroupCommit.entered_step hentered hstep
    | thread hstep hthread hresumed houtside => exact GroupCommit.entered_step hentered hstep
    | resume writer pending hthread houtside =>
      have hstep : GroupCommit.Step host s.base _ := .threadResume writer pending hthread
      exact GroupCommit.entered_step hentered hstep
    | writeInline writer hrunning hallowed hnew hbatch henqueue =>
      have hstep : GroupCommit.Step host s.base _ := .enterInline writer hnew hbatch henqueue
      exact GroupCommit.entered_step hentered hstep
    | writeQueued writer hrunning hallowed hnew hbatch henqueue =>
      have hstep : GroupCommit.Step host s.base _ := .enterQueued writer hnew hbatch henqueue
      exact GroupCommit.entered_step hentered hstep
    | written => exact hentered
    | leave => exact hentered

theorem queued_of_reachable {s : NestedCommit} (h : Reachable (nestedCommit host allowed) s)
    {writer : Writer} : s.nesting = .waiting writer → s.base.Queued writer := by
  refine h.invariant (p := fun s => s.nesting = .waiting writer → s.base.Queued writer) ?_ ?_
  · rintro s ⟨-, houtside⟩ hwaiting
    simp [hwaiting] at houtside
  · intro s t hs hqueued hst hwaiting
    by_cases hbefore : s.nesting = .waiting writer
    · exact (waiting_step hbefore (hqueued hbefore) hst).2
    cases hst with
    | client => exact absurd hwaiting hbefore
    | thread => exact absurd hwaiting hbefore
    | writeQueued other hrunning hallowed hnew hbatch henqueue =>
      obtain rfl : other = writer := by simpa using hwaiting
      rcases WriteQueue.enqueue_queued henqueue with ⟨armed, hqueue⟩
      have hentered := entered_of_reachable hs
      refine ⟨by simp [hqueue], by simp, ?_⟩
      simp only [GroupCommit.entered, GroupCommit.inProgress, GroupCommit.calls,
        GroupCommit.waiting] at hentered
      grind
    | _ => simp at hwaiting

/-- Nothing that a client does frees a blocked writer thread. -/
theorem Blocked.forever {s t : NestedCommit} (hs : Reachable (nestedCommit host allowed) s)
    (h : s.Blocked) (hst : Relation.ReflTransGen (Step host allowed) s t) : t.Blocked := by
  obtain ⟨writer, hwaiting, -⟩ := h
  have : t.nesting = .waiting writer ∧ t.base.Queued writer := by
    induction hst with
    | refl => exact ⟨hwaiting, queued_of_reachable hs hwaiting⟩
    | tail _ hstep ih => exact waiting_step ih.1 ih.2 hstep
  exact ⟨writer, this.1, this.2.mem⟩

end NestedCommit

/-! ### Writes that block -/

/-- Nobody writes, nobody waits, and no group is expected to form. -/
def WriteQueue.Quiet (queue : WriteQueue) : Prop :=
  queue.writing = false ∧ queue.writers = [] ∧ queue.groupCommitArmed = false

theorem WriteQueue.enqueue_eq_false_iff (queue : WriteQueue) (writer : Writer) :
    (queue.enqueue writer).2 = false ↔ queue.Quiet := by
  unfold enqueue Quiet
  simp only
  split
  · next hquiet => simpa [and_assoc] using hquiet
  · next hbusy =>
    have : ¬(queue.writing = false ∧ queue.writers = [] ∧ queue.groupCommitArmed = false) := by
      simpa [and_assoc] using hbusy
    split <;> simp [this]

theorem exists_new_writer (arrivals : List Writer) :
    ∃ writer : Writer, writer.id ∉ arrivals.map Writer.id ∧ writer.batch.empty = false := by
  obtain ⟨id, hid⟩ := Infinite.exists_notMem_finset (arrivals.map Writer.id).toFinset
  rw [List.mem_toFinset] at hid
  exact ⟨⟨id, WriteBatch.new.put [] []⟩, hid, rfl⟩

namespace NestedCommit

theorem not_waiting {host : Host} {allowed : GroupCommit → Prop}
    (hallowed : ∀ s, Reachable (nestedCommit host allowed) s → s.nesting = .running →
      allowed s.base → s.base.queue.Quiet)
    {s : NestedCommit} (h : Reachable (nestedCommit host allowed) s) (writer : Writer) :
    s.nesting ≠ .waiting writer := by
  refine h.invariant (p := fun s => s.nesting ≠ .waiting writer) ?_ ?_
  · rintro s ⟨-, houtside⟩
    simp [houtside]
  · intro s t hs hnot hst
    cases hst with
    | client => exact hnot
    | thread => exact hnot
    | writeQueued other hrunning hwrite hnew hbatch henqueue =>
      have hquiet := hallowed s hs hrunning hwrite
      rw [(WriteQueue.enqueue_eq_false_iff s.base.queue other).mpr hquiet] at henqueue
      contradiction
    | _ => simp

end NestedCommit

/-- No continuation ever blocks the writer thread if and only if continuations write only while the
queue is quiet. -/
theorem nested_writes_never_block_iff (host : Host) (allowed : GroupCommit → Prop) :
    (∀ s, Reachable (nestedCommit host allowed) s → ¬s.Blocked) ↔
      ∀ s, Reachable (nestedCommit host allowed) s → s.nesting = .running → allowed s.base →
        s.base.queue.Quiet := by
  constructor
  · intro hnever s hs hrunning hwrite
    by_contra hbusy
    obtain ⟨writer, hnew, hbatch⟩ := exists_new_writer s.base.arrivals
    have henqueue : (s.base.queue.enqueue writer).2 = true := by
      rw [← Bool.not_eq_false, WriteQueue.enqueue_eq_false_iff]
      exact hbusy
    refine hnever _ (hs.step (.writeQueued writer hrunning hwrite hnew hbatch henqueue))
      ⟨writer, rfl, ?_⟩
    obtain ⟨armed, hqueue⟩ := WriteQueue.enqueue_queued henqueue
    simp [hqueue]
  · rintro hallowed s hs ⟨writer, hwaiting, -⟩
    exact NestedCommit.not_waiting hallowed hs writer hwaiting

/-- The writer thread finishes a group of two, which arms group commit, and resumes the first of its
writers, whose continuation calls `Put`.  From then on no step of a client helps. -/
theorem nested_write_blocks_after_group :
    ∃ s : NestedCommit, Reachable (nestedCommit .sample fun _ => True) s ∧ s.Blocked ∧
      s.base.finished.map (fun f => f.1.map Writer.id) = [[0], [1, 2]] ∧
      s.base.queue.writers.map Writer.id = [3] ∧
      ∀ t, Relation.ReflTransGen (nestedCommit .sample fun _ => True).step s t → t.Blocked := by
  have h : Reachable (nestedCommit .sample fun _ => True)
      { base := { db := {}, file := [], committed := [] } } :=
    .initial ⟨initial_empty .sample, rfl⟩
  have h := h.step (.client (.enterInline ⟨0, .put .new [97] [49]⟩ (by decide) rfl rfl) rfl)
  have h := h.step (.client (.enterQueued ⟨1, .put .new [98] [50]⟩ (by decide) rfl rfl) rfl)
  have h := h.step (.client (.enterQueued ⟨2, .put .new [99] [51]⟩ (by decide) rfl rfl) rfl)
  have h := h.step (.client (.inlineCall (.success 32) _ [] [] rfl) rfl)
  have h := h.step (.client (.inlineFinish _ _ [] [] rfl) rfl)
  have h := h.step (.thread (.wakeGather rfl rfl rfl rfl) nofun rfl rfl)
  have h := h.step (.thread (.collect rfl) nofun rfl rfl)
  have h := h.step (.thread (.threadCall (.success 46) _ rfl) nofun rfl rfl)
  have h := h.step (.thread (.threadFinish _ _ rfl) nofun rfl rfl)
  have h := h.step (.resume _ _ rfl rfl)
  have h := h.step (.writeQueued ⟨3, .put .new [100] [52]⟩ rfl trivial (by decide) rfl rfl)
  have hforever := fun t => NestedCommit.Blocked.forever (t := t) h
    ⟨_, rfl, List.mem_singleton_self _⟩
  exact ⟨_, h, hforever _ .refl, rfl, rfl, hforever⟩

end StorageEngine
