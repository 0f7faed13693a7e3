import StorageEngine.Queue.Serial

/-! How long a writer waits, counted in groups.  A writer that finds a group in progress belongs to
the next one: while somebody waits nobody commits inline, and the writer thread takes all who
wait. -/

namespace StorageEngine

open Transition

namespace GroupCommit

variable {host : Host} {writer : Writer} {ahead : List (List Writer)} {s t : GroupCommit}

/-- The groups `ahead` are those before the writer's own.  Its group is finished right behind some
of them, or it is in progress or waits, and then no group is finished but these. -/
inductive Overtaken (writer : Writer) (ahead : List (List Writer)) (s : GroupCommit) : Prop
  | done (front : List (List Writer)) (own : List Writer) (more : List (List Writer))
      (hfront : front <+: ahead) (hwriter : writer ∈ own)
      (hfinished : s.finished.map Prod.fst = front ++ own :: more)
  | writing (h : writer ∈ s.inProgress.flatten) (hahead : s.finished.map Prod.fst <+: ahead)
  | queued (h : writer ∈ s.queue.writers)
      (hahead : s.finished.map Prod.fst ++ s.inProgress <+: ahead)

theorem Overtaken.keep (h : Overtaken writer ahead s) (hfinished : t.finished = s.finished)
    (hinProgress : t.inProgress = s.inProgress)
    (hwriters : s.queue.writers ⊆ t.queue.writers) : Overtaken writer ahead t := by
  cases h with
  | done front own more hfront hwriter hdone =>
    exact .done front own more hfront hwriter (by rwa [hfinished])
  | writing h hahead => exact .writing (hinProgress ▸ h) (hfinished ▸ hahead)
  | queued h hahead => exact .queued (hwriters h) (by rwa [hfinished, hinProgress])

/-- The group in progress is finished. -/
theorem Overtaken.finishes (h : Overtaken writer ahead s) {group : List Writer} {status : Status}
    (hfinished : t.finished = s.finished ++ [(group, status)]) (hbefore : s.inProgress = [group])
    (hafter : t.inProgress = []) (hwriters : t.queue.writers = s.queue.writers) :
    Overtaken writer ahead t := by
  have hgroups : t.finished.map Prod.fst = s.finished.map Prod.fst ++ [group] := by
    simp [hfinished]
  cases h with
  | done front own more hfront hwriter hdone =>
    exact .done front own (more ++ [group]) hfront hwriter (by simp [hgroups, hdone])
  | writing h hahead => exact .done _ group [] hahead (by simpa [hbefore] using h) hgroups
  | queued h hahead =>
    refine .queued (hwriters ▸ h) ?_
    rwa [hgroups, hafter, List.append_nil, ← hbefore]

/-- The writer thread takes all who wait. -/
theorem Overtaken.collects (h : Overtaken writer ahead s) (hfinished : t.finished = s.finished)
    (hbefore : s.inProgress = []) (hafter : t.inProgress = [s.queue.writers]) :
    Overtaken writer ahead t := by
  cases h with
  | done front own more hfront hwriter hdone =>
    exact .done front own more hfront hwriter (by rwa [hfinished])
  | writing h => simp [hbefore] at h
  | queued h hahead =>
    refine .writing (by simpa [hafter] using h) ?_
    rwa [hfinished, ← List.append_nil (s.finished.map Prod.fst), ← hbefore]

theorem Overtaken.step (h : Overtaken writer ahead s) (horder : InOrder s)
    (hrun : s.queue.stopWriter = false) (hstep : Step host s t) : Overtaken writer ahead t := by
  cases hstep with
  | enterInline other hnew hbatch henqueue =>
    -- Nobody is in progress and nobody waits.
    obtain ⟨hwriting, hwriters, -⟩ := WriteQueue.enqueue_inline henqueue
    obtain ⟨hinline, hbusy⟩ := horder.quiet hwriting
    cases h with
    | done front own more hfront hwriter hdone => exact .done front own more hfront hwriter hdone
    | writing h => simp [inProgress, calls, hinline, calls_of_not_busy hbusy] at h
    | queued h => simp [hwriters] at h
  | enterQueued other hnew hbatch henqueue =>
    obtain ⟨armed, hqueue⟩ := WriteQueue.enqueue_queued henqueue
    refine h.keep rfl rfl ?_
    simp [hqueue]
  | inlineCall io other before after hinline =>
    refine h.keep rfl ?_ (List.Subset.refl _)
    simp [inProgress, calls, call, hinline]
  | inlineFinish other status before after hinline =>
    obtain ⟨rfl, rfl, hbusy⟩ := horder.inline_alone hinline
    have hcalls := calls_of_not_busy hbusy
    refine h.finishes rfl ?_ ?_ rfl
    · simp [inProgress, calls, hinline, hcalls]
    · simp [inProgress, calls, publish, hcalls]
  | inlineResume => exact h.keep rfl rfl (List.Subset.refl _)
  | wakeGather hthread hwakes hstays hbegin =>
    obtain ⟨armed, hqueue⟩ := s.queue.begin_eq
    refine h.keep rfl ?_ ?_
    · simp [inProgress, calls, hthread, Phase.calls]
    · simp [hqueue]
  | wakeCollect hthread hwakes hstays hbegin =>
    have hinline := horder.wakes_quiet hrun hwakes
    obtain ⟨armed, hqueue⟩ := s.queue.begin_eq
    refine h.collects rfl ?_ ?_
    · simp [inProgress, calls, hthread, hinline, Phase.calls]
    · simp [inProgress, calls, collect, hinline, Phase.calls, hqueue, WriteQueue.drain_eq]
  | collect hthread =>
    have hinline := horder.thread_alone (by rw [hthread]; rfl)
    refine h.collects rfl ?_ ?_
    · simp [inProgress, calls, hthread, hinline, Phase.calls]
    · simp [inProgress, calls, GroupCommit.collect, hinline, Phase.calls, WriteQueue.drain_eq]
  | threadCall io group hthread =>
    refine h.keep rfl ?_ (List.Subset.refl _)
    simp [inProgress, calls, call, hthread, Phase.calls]
  | threadFinish group status hthread =>
    have hinline := horder.thread_alone (by rw [hthread]; rfl)
    obtain ⟨armed, hqueue⟩ := s.queue.finish_eq group
    refine h.finishes rfl ?_ ?_ (by rw [hqueue])
    · simp [inProgress, calls, hthread, hinline, Phase.calls]
    · simp [inProgress, calls, publish, hinline, Phase.calls]
  | threadResume other pending hthread | threadLoop hthread | threadExit hthread =>
    refine h.keep rfl ?_ (List.Subset.refl _)
    simp [inProgress, calls, hthread, Phase.calls]
  | stop => exact h.keep rfl rfl (List.Subset.refl _)

/-- A writer that has just arrived is in progress, or waits behind the group in progress. -/
theorem overtaken_of_arrives (hstep : Step host s t)
    (harrives : t.arrivals = s.arrivals ++ [writer]) :
    Overtaken writer (s.finished.map Prod.fst ++ s.inProgress) t := by
  cases hstep with
  | enterInline other =>
    obtain rfl : other = writer := by simpa using harrives
    exact .writing (by simp [inProgress, calls]) (List.prefix_append ..)
  | enterQueued other hnew hbatch henqueue =>
    obtain rfl : other = writer := by simpa using harrives
    obtain ⟨armed, hqueue⟩ := WriteQueue.enqueue_queued henqueue
    exact .queued (by simp [hqueue]) List.prefix_rfl
  | _ => simp [call, publish, GroupCommit.collect] at harrives

theorem overtaken_of_run {u : GroupCommit} (ht : Reachable (groupCommit host) t)
    (h : Overtaken writer ahead t) (hrun : Relation.ReflTransGen (Step host) t u)
    (hopen : u.queue.stopWriter = false) : Overtaken writer ahead u := by
  induction hrun with
  | refl => exact h
  | tail hrun hst ih =>
    have hbefore := hst.stopWriter hopen
    have horder := (invariant_of_reachable (ht.trans hrun) hbefore).inOrder
    exact (ih hbefore).step horder hbefore hst

theorem stopWriter_of_run {u : GroupCommit} (hrun : Relation.ReflTransGen (Step host) t u)
    (hopen : u.queue.stopWriter = false) : t.queue.stopWriter = false := by
  induction hrun with
  | refl => exact hopen
  | tail _ hst ih => exact ih (hst.stopWriter hopen)

theorem Overtaken.not_finished (h : Overtaken writer ahead s)
    (hwaits : writer ∉ s.finishedWriters) : s.finished.map Prod.fst <+: ahead := by
  cases h with
  | done front own more hfront hwriter hdone =>
    refine absurd ?_ hwaits
    rw [finishedWriters, hdone]
    exact List.mem_flatten.mpr ⟨own, by simp, hwriter⟩
  | writing _ hahead => exact hahead
  | queued _ hahead => exact (List.prefix_append ..).trans hahead

theorem Overtaken.finished_behind (h : Overtaken writer ahead s) (horder : InOrder s)
    (hdone : writer ∈ s.finishedWriters) :
    ∃ front own more, front <+: ahead ∧ writer ∈ own ∧
      s.finished.map Prod.fst = front ++ own :: more := by
  -- No writer is finished and also in progress or waiting.
  have hnodup := horder.fresh.of_map
  rw [horder.order, List.append_assoc, List.nodup_append] at hnodup
  have hnot : writer ∉ s.inProgress.flatten ++ s.queue.writers := fun hmem =>
    hnodup.2.2 writer hdone writer hmem rfl
  cases h with
  | done front own more hfront hwriter hfinished =>
    exact ⟨front, own, more, hfront, hwriter, hfinished⟩
  | writing h => exact absurd (List.mem_append_left _ h) hnot
  | queued h => exact absurd (List.mem_append_right _ h) hnot

end GroupCommit

/-- While the database is open, a writer waits for one group at most: the one that was in progress
when it arrived.  Until its own group is finished, no other group is, and its own group comes right
behind. -/
theorem writer_waits_for_one_group (host : Host) {s t u : GroupCommit} {writer : Writer}
    (hs : Reachable (groupCommit host) s) (hstep : GroupCommit.Step host s t)
    (harrives : t.arrivals = s.arrivals ++ [writer])
    (hrun : Relation.ReflTransGen (GroupCommit.Step host) t u)
    (hopen : u.queue.stopWriter = false) :
    let ahead := s.finished.map Prod.fst ++ s.inProgress
    s.inProgress.length ≤ 1 ∧
      (writer ∉ u.finishedWriters → u.finished.map Prod.fst <+: ahead) ∧
      (writer ∈ u.finishedWriters → ∃ front own more, front <+: ahead ∧ writer ∈ own ∧
        u.finished.map Prod.fst = front ++ own :: more) := by
  intro ahead
  have ht : Reachable (groupCommit host) t := hs.step hstep
  have hopenS := hstep.stopWriter (GroupCommit.stopWriter_of_run hrun hopen)
  have horder := (GroupCommit.invariant_of_reachable (ht.trans hrun) hopen).inOrder
  have hovertaken := GroupCommit.overtaken_of_run ht
    (GroupCommit.overtaken_of_arrives hstep harrives) hrun hopen
  exact ⟨(GroupCommit.invariant_of_reachable hs hopenS).inOrder.inProgress_length_le,
    hovertaken.not_finished, hovertaken.finished_behind horder⟩

/-- The writer arrives during an inline group, and is in progress when that group is finished. -/
theorem writer_waits_for_one_group_inline :
    ∃ (s t u : GroupCommit) (writer : Writer), Reachable (groupCommit .sample) s ∧
      GroupCommit.Step .sample s t ∧ Relation.ReflTransGen (GroupCommit.Step .sample) t u ∧
      writer ∉ u.finishedWriters ∧ (s.finished.length, u.finished.length) = (0, 1) ∧
      u.finished.map Prod.fst <+: s.finished.map Prod.fst ++ s.inProgress := by
  have h := Reachable.initial (initial_empty .sample)
  have h := h.step (.enterInline ⟨0, .put .new [97] [49]⟩ (by decide) rfl rfl)
  have ht := h.step (.enterQueued ⟨1, .put .new [98] [50]⟩ (by decide) rfl rfl)
  have hstart {s : GroupCommit} (_ : Reachable (groupCommit .sample) s) :
    Relation.ReflTransGen (GroupCommit.Step .sample) s s := .refl
  have hrun := (hstart ht).tail (.inlineCall (.success 32) _ [] [] rfl)
  have hrun := hrun.tail (.inlineFinish _ _ [] [] rfl)
  have hrun := hrun.tail (.wakeGather rfl rfl rfl rfl)
  have hrun := hrun.tail (.collect rfl)
  obtain ⟨-, hwaits, -⟩ := writer_waits_for_one_group .sample h
    (.enterQueued _ (by decide) rfl rfl) rfl hrun rfl
  exact ⟨_, _, _, ⟨1, .put .new [98] [50]⟩, h, .enterQueued _ (by decide) rfl rfl, hrun, by decide,
    rfl, hwaits (by decide)⟩

end StorageEngine
