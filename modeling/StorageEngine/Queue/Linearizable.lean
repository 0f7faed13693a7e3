import StorageEngine.Lib.AtomicObject
import StorageEngine.Queue.Readers

/-! The keys of one shard are an atomic table.  A write takes effect on them when `ApplyBatches` has
the lock of the shard, which is after its group is on disk and before its writer is told; a `Get`
takes effect under the same lock.  Writes of which the writer is told that they failed never take
effect. -/

namespace StorageEngine

open AtomicObject Wal Io Transition

/-! ### The atomic table -/

inductive Client where
  | writer (id : Nat)
  | reader (id : Nat)
  deriving DecidableEq

inductive TableOp where
  | write (batch : WriteBatch)
  | get (key : Bytes)
  deriving DecidableEq

inductive Answer where
  | written
  | value (result : Result Bytes)
  deriving DecidableEq

/-- What `Get` returns once the entry is applied. -/
def overwrite (view : Bytes → Result Bytes) (entry : Entry) : Bytes → Result Bytes :=
  Function.update view entry.key
    (match entry.type with
    | .kPut => .ok entry.value
    | .kDelete => .error (.notFound "key not found"))

def atomicTable : Object TableOp (Bytes → Result Bytes) Answer where
  apply
    | .write batch, view => (batch.entries.foldl overwrite view, .written)
    | .get key, view => (view, .value (view key))

abbrev TableRun := Run Client TableOp (Bytes → Result Bytes) Answer

theorem readEntry_applyEntries (table : Bytes → Option MemEntry) (base : BitVec 64)
    (entries : List Entry) :
    readEntry (applyEntries table base entries) = entries.foldl overwrite (readEntry table) := by
  induction entries generalizing table base with
  | nil => rfl
  | cons entry entries ih =>
    rw [applyEntries, ih, List.foldl_cons]
    congr 1
    funext key
    by_cases hkey : key = entry.key
    · subst hkey
      cases htype : entry.type <;> simp [overwrite, readEntry, applyEntry, htype]
    · simp [overwrite, readEntry, applyEntry, Function.update_of_ne hkey]

theorem readEntry_applyCalls_append (table : Bytes → Option MemEntry) (calls : List MemTable.Call)
    (call : MemTable.Call) :
    readEntry (MemTable.applyCalls table (calls ++ [call])) =
      call.batches.foldl (fun view batch => batch.entries.foldl overwrite view)
        (readEntry (MemTable.applyCalls table calls)) := by
  rw [MemTable.applyCalls, List.foldl_append]
  exact (readEntry_applyEntries _ _ _).trans (List.foldl_flatMap ..)

/-! ### What clients see -/

inductive ServiceEvent where
  | call (writer : Writer)
  | answer (writer : Writer) (status : Status)
  | get (id : Nat) (key : Bytes) (result : Result Bytes)

/-- The writes, and the reads of some keys.  A `Get` is invoked and returns in one step. -/
def ServiceEvent.atKeys (keys : Bytes → Bool) : ServiceEvent → List (Event Client TableOp Answer)
  | .call writer => [.invoke (.writer writer.id) (.write writer.batch)]
  | .answer writer status =>
    [.respond (.writer writer.id) (if status.ok then some .written else none)]
  | .get id key result =>
    if keys key then
      [.invoke (.reader id) (.get key), .respond (.reader id) (some (.value result))]
    else []

/-- The events of a step.  A reader is named by its place among all reads. -/
def Serving.events (s t : Serving) : List ServiceEvent :=
  (t.commit.arrivals.drop s.commit.arrivals.length).map .call ++
    (t.commit.resumed.drop s.commit.resumed.length).map (fun r => .answer r.1 r.2) ++
    (t.shared.reads.drop s.shared.reads.length).mapIdx fun i r =>
      .get (s.shared.reads.length + i) r.key r.result

/-- The service with the history of its events. -/
structure Observed where
  serving : Serving
  history : List ServiceEvent := []

inductive Observed.Step (host : Host) : Observed → Observed → Prop
  | step {o : Observed} {t : Serving} (h : Serving.Step host o.serving t) :
    Step host o ⟨t, o.history ++ o.serving.events t⟩

def observed (host : Host) (opened : List Group) : System Observed where
  initial o := ∃ s, (serving host opened).initial s ∧ o = { serving := s }
  step := Observed.Step host

/-! ### Steps of the queue -/

namespace GroupCommit

/-- What clients see of a step of the queue. -/
inductive Seen (s t : GroupCommit) : Prop
  | nothing (harrivals : t.arrivals = s.arrivals) (hresumed : t.resumed = s.resumed)
  | call (writer : Writer) (harrivals : t.arrivals = s.arrivals ++ [writer])
      (hresumed : t.resumed = s.resumed) (hcommitted : t.committed = s.committed)
  | answer (writer : Writer) (status : Status) (harrivals : t.arrivals = s.arrivals)
      (hresumed : t.resumed = s.resumed ++ [(writer, status)])
      (hcommitted : t.committed = s.committed)

theorem Step.seen {host : Host} {s t : GroupCommit} (h : Step host s t) : Seen s t := by
  cases h with
  | enterInline writer | enterQueued writer => exact .call writer rfl rfl rfl
  | inlineResume writer | threadResume writer => exact .answer writer _ rfl rfl rfl
  | _ => exact .nothing rfl rfl

theorem Access.succeeded_grows {host : Host} {s t : GroupCommit} (h : Access host s t) :
    s.succeeded <+: t.succeeded := by
  cases h with
  | none _ _ _ _ hsucceeded => exact hsucceeded ▸ List.prefix_rfl
  | call _ _ _ _ _ _ hsucceeded => exact hsucceeded ▸ List.prefix_append ..

end GroupCommit

/-! ### The writers that have taken effect -/

namespace Serving

variable {host : Host} {opened : List Group} {key : Bytes} {keys : Bytes → Bool} {s t : Serving}

/-- The writers whose groups have reached the shard of the key. -/
def effected (host : Host) (key : Bytes) (s : Serving) : List Writer :=
  (s.commit.succeeded.take (s.shared.version host key)).flatten

/-- A writer that was told of its success has taken effect. -/
theorem Writes.mem_effected (h : s.Writes host opened) {f : List Writer × Status}
    (hf : f ∈ s.commit.finished) (hok : f.2.ok = true) {writer : Writer} (hwriter : writer ∈ f.1) :
    writer ∈ s.effected host key := by
  have htold : f.1 ∈ s.told := List.mem_map_of_mem (List.mem_filter.mpr ⟨hf, hok⟩)
  have hversion := h.told_le_version key
  refine List.mem_flatten.mpr ⟨f.1, ?_, hwriter⟩
  have hbegins : s.told <+: s.commit.succeeded := List.prefix_append ..
  refine (List.prefix_take_iff.mpr ⟨hbegins, ?_⟩).subset htold
  omega

/-- A writer that has taken effect is not told that it failed. -/
theorem Writes.status_of_effected (h : s.Writes host opened) {writer : Writer}
    (heffected : writer ∈ s.effected host key)
    (hfinished : writer ∈ s.commit.finishedWriters) : (s.commit.status writer.id).ok = true := by
  obtain ⟨group, hgroup, hwriter⟩ := List.mem_flatten.mp heffected
  rcases List.mem_append.mp (List.mem_of_mem_take hgroup) with hgroup | hgroup
  · obtain ⟨f, hf, rfl⟩ := List.mem_map.mp hgroup
    obtain ⟨hf, hok⟩ := List.mem_filter.mp hf
    rw [h.delivered.statuses f hf writer hwriter, hok]
  · obtain ⟨call, hcall, rfl⟩ := List.mem_map.mp hgroup
    have hnot := h.inOrder.id_notMem (List.mem_filter.mp hcall).1 hfinished
    exact absurd (List.mem_map_of_mem hwriter) hnot

/-! ### The table of a shard -/

/-- What the shard of the key shows. -/
def shown (host : Host) (opened : List Group) (key : Bytes) (s : Serving) : Bytes → Result Bytes :=
  readEntry (MemTable.applyCalls (committedTable opened)
    (s.shared.calls.take (s.shared.version host key)))

theorem effected_congr (hversion : t.shared.version host key = s.shared.version host key)
    (hsucceeded : t.commit.succeeded = s.commit.succeeded) :
    t.effected host key = s.effected host key := by
  rw [effected, effected, hversion, hsucceeded]

theorem shown_congr (hversion : t.shared.version host key = s.shared.version host key)
    (hcalls : t.shared.calls = s.shared.calls) :
    t.shown host opened key = s.shown host opened key := by
  rw [shown, shown, hversion, hcalls]

def invocation (writer : Writer) : Client × TableOp := (.writer writer.id, .write writer.batch)

def success (writer : Writer) : Client × Answer := (.writer writer.id, .written)

/-- The atomic table shows what the shard shows.  Of the writers that were not told, those in `told`
have taken effect, and those in `waits` have not. -/
structure Matches (host : Host) (opened : List Group) (key : Bytes) (s : Serving)
    (r : TableRun) (waits told : Multiset Writer) : Prop where
  state : r.state = s.shown host opened key
  waiting : r.waiting = waits.map invocation
  answered : r.answered = told.map success
  account : waits + told + (s.commit.resumed.map Prod.fst : List Writer) = s.commit.arrivals
  taken : (s.effected host key : Multiset Writer) =
    told + ((s.commit.resumed.filter fun r => r.2.ok).map Prod.fst : List Writer)

/-- A step that clients see nothing of, and that reaches no shard of the key. -/
theorem Matches.keep {r : TableRun}
    {waits told : Multiset Writer} (h : s.Matches host opened key r waits told)
    (hshown : t.shown host opened key = s.shown host opened key)
    (heffected : t.effected host key = s.effected host key)
    (harrivals : t.commit.arrivals = s.commit.arrivals)
    (hresumed : t.commit.resumed = s.commit.resumed) :
    t.Matches host opened key r waits told where
  state := h.state.trans hshown.symm
  waiting := h.waiting
  answered := h.answered
  account := by rw [harrivals, hresumed]; exact h.account
  taken := by rw [heffected, hresumed]; exact h.taken

/-- The atomic table answers a step with a run that clients see in the same way. -/
def Answers (host : Host) (opened : List Group) (key : Bytes) (keys : Bytes → Bool)
    (r : TableRun) (t : Serving) (events : List ServiceEvent) : Prop :=
  ∃ r' waits told, Relation.ReflTransGen (AtomicObject.Step atomicTable) r r' ∧
    t.Matches host opened key r' waits told ∧
    r'.history = r.history ++ events.flatMap (ServiceEvent.atKeys keys)

section Steps

variable {r : TableRun} {waits told : Multiset Writer}

theorem Matches.silent (h : s.Matches host opened key r waits told)
    (hshown : t.shown host opened key = s.shown host opened key)
    (heffected : t.effected host key = s.effected host key)
    (harrivals : t.commit.arrivals = s.commit.arrivals)
    (hresumed : t.commit.resumed = s.commit.resumed) (hreads : t.shared.reads = s.shared.reads) :
    Answers host opened key keys r t (s.events t) :=
  ⟨r, waits, told, .refl, h.keep hshown heffected harrivals hresumed, by
    simp [events, harrivals, hresumed, hreads]⟩

/-- A writer arrives. -/
theorem Matches.call (h : s.Matches host opened key r waits told)
    (hshown : t.shown host opened key = s.shown host opened key)
    (heffected : t.effected host key = s.effected host key) {writer : Writer}
    (harrivals : t.commit.arrivals = s.commit.arrivals ++ [writer])
    (hresumed : t.commit.resumed = s.commit.resumed) (hreads : t.shared.reads = s.shared.reads) :
    Answers host opened key keys r t (s.events t) := by
  refine ⟨_, writer ::ₘ waits, told,
    .single (.invoke r (.writer writer.id) (.write writer.batch)), ?_, ?_⟩
  · refine ⟨h.state.trans hshown.symm, ?_, h.answered, ?_, ?_⟩
    · rw [Multiset.map_cons, ← h.waiting]
      rfl
    · rw [harrivals, hresumed, Multiset.cons_add, Multiset.cons_add, h.account, ← Multiset.coe_add,
        Multiset.coe_singleton, add_comm, Multiset.singleton_add]
    · rw [heffected, hresumed]
      exact h.taken
  · simp [events, harrivals, hresumed, hreads, ServiceEvent.atKeys]

theorem Writes.not_resumed (ht : t.Writes host opened) {before : List (Writer × Status)}
    {writer : Writer} {status : Status}
    (hresumed : t.commit.resumed = before ++ [(writer, status)]) :
    writer ∉ before.map Prod.fst := by
  have hnodup := ht.delivered.resumed_nodup ht.inOrder
  rw [hresumed, List.map_append, List.nodup_append] at hnodup
  intro hmem
  obtain ⟨r, hr, rfl⟩ := List.mem_map.mp hmem
  exact hnodup.2.2 r.1.id (List.mem_map_of_mem hr) r.1.id (by simp) rfl

/-- A writer that is told of its success has taken effect, and was not told before. -/
theorem Matches.mem_told (h : s.Matches host opened key r waits told) (ht : t.Writes host opened)
    (heffected : t.effected host key = s.effected host key) {writer : Writer}
    {status : Status} (hresumed : t.commit.resumed = s.commit.resumed ++ [(writer, status)])
    (hok : status.ok = true) : writer ∈ told := by
  have hmem : (writer, status) ∈ t.commit.resumed := by simp [hresumed]
  obtain ⟨f, hf, hwriter, hstatus⟩ := ht.delivered.exists_finished hmem
  have htaken : writer ∈ (s.effected host key : Multiset Writer) :=
    heffected ▸ ht.mem_effected hf (hstatus ▸ hok) hwriter
  rw [h.taken, Multiset.mem_add] at htaken
  refine htaken.resolve_right fun hbefore => ht.not_resumed hresumed ?_
  exact List.map_subset _ (List.filter_subset_self _) hbefore

/-- A writer that is told that it failed is among those that have not taken effect. -/
theorem Matches.mem_waits (h : s.Matches host opened key r waits told) (ht : t.Writes host opened)
    (heffected : t.effected host key = s.effected host key) {writer : Writer}
    {status : Status} (harrivals : t.commit.arrivals = s.commit.arrivals)
    (hresumed : t.commit.resumed = s.commit.resumed ++ [(writer, status)])
    (hfail : status.ok = false) : writer ∈ waits := by
  have hmem : (writer, status) ∈ t.commit.resumed := by simp [hresumed]
  have hfinished := ht.delivered.mem_finished hmem
  have harrived : writer ∈ (s.commit.arrivals : Multiset Writer) := by
    rw [← harrivals, Multiset.mem_coe, ht.inOrder.order, List.append_assoc]
    exact List.mem_append_left _ hfinished
  rw [← h.account, Multiset.mem_add, Multiset.mem_add] at harrived
  refine (harrived.resolve_right (ht.not_resumed hresumed)).resolve_right fun htold => ?_
  have htaken : writer ∈ t.effected host key := by
    rw [heffected, ← Multiset.mem_coe, h.taken]
    exact Multiset.mem_add.mpr (.inl htold)
  have hstatus := ht.status_of_effected htaken hfinished
  rw [← ht.delivered.seen _ hmem, hfail] at hstatus
  contradiction

/-- A writer is told. -/
theorem Matches.answer (h : s.Matches host opened key r waits told) (ht : t.Writes host opened)
    (hshown : t.shown host opened key = s.shown host opened key)
    (heffected : t.effected host key = s.effected host key) {writer : Writer}
    {status : Status} (harrivals : t.commit.arrivals = s.commit.arrivals)
    (hresumed : t.commit.resumed = s.commit.resumed ++ [(writer, status)])
    (hreads : t.shared.reads = s.shared.reads) : Answers host opened key keys r t (s.events t) := by
  have hevents : s.events t = [.answer writer status] := by
    simp [events, harrivals, hresumed, hreads]
  have hwriters : (t.commit.resumed.map Prod.fst : Multiset Writer) =
      (s.commit.resumed.map Prod.fst : List Writer) + {writer} := by
    rw [hresumed, List.map_append, ← Multiset.coe_add]
    rfl
  have haccount := h.account
  rw [← harrivals] at haccount
  rw [hevents]
  cases hok : status.ok with
  | true =>
    obtain ⟨rest, rfl⟩ := Multiset.exists_cons_of_mem (h.mem_told ht heffected hresumed hok)
    refine ⟨_, waits, rest, .single (.respond r (.writer writer.id) .written (rest.map success) ?_),
      ⟨h.state.trans hshown.symm, h.waiting, rfl, ?_, ?_⟩, ?_⟩
    · rw [h.answered, Multiset.map_cons]
      rfl
    · rw [← haccount, hwriters, ← Multiset.singleton_add]
      ac_rfl
    · rw [heffected, h.taken, hresumed, List.filter_append, List.filter_singleton, hok, cond_true,
        List.map_append, ← Multiset.coe_add, ← Multiset.singleton_add]
      show {writer} + rest + _ = rest + (_ + {writer})
      ac_rfl
    · simp [ServiceEvent.atKeys, hok]
  | false =>
    obtain ⟨rest, rfl⟩ :=
      Multiset.exists_cons_of_mem (h.mem_waits ht heffected harrivals hresumed hok)
    refine ⟨_, rest, told, .single (.fail r (.writer writer.id) (.write writer.batch)
      (rest.map invocation) ?_), ⟨h.state.trans hshown.symm, rfl, h.answered, ?_, ?_⟩, ?_⟩
    · rw [h.waiting, Multiset.map_cons]
      rfl
    · rw [← haccount, hwriters, ← Multiset.singleton_add]
      ac_rfl
    · rw [heffected, h.taken, hresumed]
      simp [hok]
    · simp [ServiceEvent.atKeys, hok]

theorem effects_writers (view : Bytes → Result Bytes) (group : List Writer) :
    effects atomicTable view (group.map invocation) =
      ((group.map Writer.batch).foldl (fun view batch => batch.entries.foldl overwrite view) view,
        (group : Multiset Writer).map success) := by
  induction group generalizing view with
  | nil => rfl
  | cons writer group ih =>
    show ((effects atomicTable _ _).1, success writer ::ₘ (effects atomicTable _ _).2) = _
    rw [ih, ← Multiset.cons_coe, Multiset.map_cons]
    rfl

/-- The group in progress reaches the shard of the key. -/
theorem Matches.takes_effect (h : s.Matches host opened key r waits told)
    {group : List Writer} {rest : Multiset Writer} (hwaits : waits = group + rest)
    (hshown : t.shown host opened key =
      (group.map Writer.batch).foldl (fun view batch => batch.entries.foldl overwrite view)
        (s.shown host opened key))
    (heffected : t.effected host key = s.effected host key ++ group)
    (harrivals : t.commit.arrivals = s.commit.arrivals)
    (hresumed : t.commit.resumed = s.commit.resumed) (hreads : t.shared.reads = s.shared.reads) :
    Answers host opened key keys r t (s.events t) := by
  have hwaiting : r.waiting = (group.map invocation : List _) + rest.map invocation := by
    rw [h.waiting, hwaits, Multiset.map_add, Multiset.map_coe]
  have hrun := run_effects atomicTable r (group.map invocation) (rest.map invocation) hwaiting
  rw [effects_writers] at hrun
  refine ⟨_, rest, told + group, hrun, ⟨?_, rfl, ?_, ?_, ?_⟩, ?_⟩
  · rw [hshown, h.state]
  · rw [h.answered, Multiset.map_add]
  · rw [harrivals, hresumed, ← h.account, hwaits]
    ac_rfl
  · rw [heffected, hresumed, ← Multiset.coe_add, h.taken]
    ac_rfl
  · simp [events, harrivals, hresumed, hreads]

end Steps

/-! ### The group in progress -/

/-- The call in progress is the last one that succeeded, and `ApplyBatches` is at its batches. -/
theorem Writes.applies (h : s.Writes host opened) {call : MemTable.Call} {shardIndex : Nat}
    (happlying : s.shared.applying = some (call, shardIndex)) :
    ∃ group, (∃ status, (group, Call.returned status) ∈ s.commit.calls) ∧
      s.commit.succeeded = s.told ++ [group] ∧ s.shared.finished.length = s.told.length ∧
      call.batches = group.map Writer.batch := by
  obtain ⟨group, status, hok, hcalls⟩ := h.call (by simp [happlying])
  have hsucceeded : s.commit.succeeded = s.told ++ [group] := by
    simp [GroupCommit.succeeded, told, hcalls, Call.ok, hok]
  obtain ⟨acked, hlog, hacked, -⟩ := h.logged
  obtain ⟨groups, hgroups, hcalled, -⟩ := h.log
  obtain rfl : groups = acked := List.append_cancel_left (hgroups.symm.trans hlog)
  have hbatches : (s.shared.finished ++ [call]).map MemTable.Call.batches =
      (s.told ++ [group]).map (List.map Writer.batch) := by
    have hshared : s.shared.finished ++ [call] = groups.map Group.call := by
      rw [← hcalled, SharedTable.calls, happlying]
      rfl
    rw [hshared, List.map_map, ← hsucceeded, ← hacked]
    rfl
  rw [List.map_append, List.map_append] at hbatches
  obtain ⟨hfront, hlast⟩ := List.append_inj' hbatches rfl
  refine ⟨group, ⟨status, by simp [hcalls]⟩, hsucceeded, ?_, by simpa using hlast⟩
  simpa using congrArg List.length hfront

section Steps

variable {r : TableRun} {waits told : Multiset Writer}

/-- The writers of the call in progress were not told, and have not taken effect. -/
theorem Matches.group_waits (h : s.Matches host opened key r waits told)
    (hs : s.Writes host opened) (heffected : s.effected host key = s.told.flatten)
    {group : List Writer} {status : Status} (hcall : (group, .returned status) ∈ s.commit.calls) :
    (group : Multiset Writer) ≤ waits := by
  have hprogress : group ∈ s.commit.inProgress := List.mem_map_of_mem hcall
  have hnodup := List.Nodup.of_map _ hs.inOrder.fresh
  have horder := hs.inOrder.order
  have hgroup : group.Nodup := by
    rw [horder, List.nodup_append, List.nodup_append] at hnodup
    exact (List.nodup_flatten.mp hnodup.1.2.1).1 group hprogress
  rw [Multiset.le_iff_subset (Multiset.coe_nodup.mpr hgroup)]
  intro writer hwriter
  have hunfinished : writer ∉ s.commit.finishedWriters := fun hfinished =>
    hs.inOrder.id_notMem hcall hfinished (List.mem_map_of_mem hwriter)
  have harrived : writer ∈ (s.commit.arrivals : Multiset Writer) := by
    rw [Multiset.mem_coe, horder]
    exact List.mem_append_left _ (List.mem_append_right _
      (List.mem_flatten.mpr ⟨group, hprogress, hwriter⟩))
  rw [← h.account, Multiset.mem_add, Multiset.mem_add] at harrived
  refine (harrived.resolve_right fun hresumed => ?_).resolve_right fun htold => ?_
  · obtain ⟨r, hr, rfl⟩ := List.mem_map.mp hresumed
    exact hunfinished (hs.delivered.mem_finished hr)
  · have htaken : writer ∈ s.told.flatten := by
      rw [← heffected, ← Multiset.mem_coe, h.taken]
      exact Multiset.mem_add.mpr (.inl htold)
    obtain ⟨group', hgroup', hwriter'⟩ := List.mem_flatten.mp htaken
    obtain ⟨f, hf, rfl⟩ := List.mem_map.mp hgroup'
    exact hunfinished (GroupCommit.mem_finishedWriters (List.mem_filter.mp hf).1 hwriter')

theorem Matches.applyShard (h : s.Matches host opened key r waits told)
    (hs : s.Writes host opened) {call : MemTable.Call} {shardIndex : Fin kShardCount}
    (happlying : s.shared.applying = some (call, shardIndex.val)) :
    Answers host opened key keys r (s.applyShard call shardIndex)
      (s.events (s.applyShard call shardIndex)) := by
  have hcalls : (s.applyShard call shardIndex).shared.calls = s.shared.calls :=
    SharedTable.calls_applyShard happlying
  have hversion : (s.applyShard call shardIndex).shared.version host key = _ :=
    SharedTable.version_applyShard happlying key
  by_cases hkey : MemTable.shardFor host key = shardIndex
  · -- The lock of the key's shard is where the writers of the group take effect, in their order.
    obtain ⟨group, ⟨status, hcall⟩, hsucceeded, hlength, hbatches⟩ := hs.applies happlying
    have hbefore : s.shared.version host key = s.shared.finished.length := by
      simp [SharedTable.version, happlying, hkey]
    rw [if_pos hkey, hbefore] at hversion
    have htold : s.effected host key = s.told.flatten := by
      rw [effected, hbefore, hlength, hsucceeded, List.take_left' rfl]
    have hall : (s.applyShard call shardIndex).effected host key = (s.told ++ [group]).flatten := by
      have hnow : (s.applyShard call shardIndex).commit.succeeded = s.told ++ [group] := hsucceeded
      rw [effected, hversion, hlength, hnow, List.take_of_length_le (by simp)]
    obtain ⟨rest, hrest⟩ := Multiset.le_iff_exists_add.mp (h.group_waits hs htold hcall)
    refine h.takes_effect hrest ?_ ?_ rfl rfl rfl
    · have hshared : s.shared.calls = s.shared.finished ++ [call] := by
        simp [SharedTable.calls, happlying]
      rw [shown, shown, hversion, hbefore, hcalls, hshared, List.take_of_length_le (by simp),
        List.take_left' rfl, readEntry_applyCalls_append, hbatches]
    · rw [hall, htold, List.flatten_append, List.flatten_singleton]
  · rw [if_neg hkey, Nat.add_zero] at hversion
    exact h.silent (shown_congr hversion hcalls) (effected_congr hversion rfl) rfl rfl rfl

theorem Matches.endCall (h : s.Matches host opened key r waits told) {call : MemTable.Call}
    (happlying : s.shared.applying = some (call, kShardCount)) :
    Answers host opened key keys r (s.endCall call) (s.events (s.endCall call)) := by
  have hversion : (s.endCall call).shared.version host key = s.shared.version host key :=
    SharedTable.version_finish happlying key
  exact h.silent (shown_congr hversion (SharedTable.calls_finish happlying))
    (effected_congr hversion rfl) rfl rfl rfl

theorem events_get (host : Host) (s : Serving) (key : Bytes) : s.events (s.get host key) =
    [.get s.shared.reads.length key (s.shared.table.get host key)] := by
  simp [events, Serving.get, SharedTable.get]

theorem Matches.get (h : s.Matches host opened key r waits told) (hs : s.Writes host opened)
    (other : Bytes)
    (hkeys : keys other = true → MemTable.shardFor host other = MemTable.shardFor host key) :
    Answers host opened key keys r (s.get host other) (s.events (s.get host other)) := by
  have hkeep : ∀ r' : TableRun, r'.state = r.state → r'.waiting = r.waiting →
      r'.answered = r.answered → (s.get host other).Matches host opened key r' waits told := by
    intro r' hstate hwaiting hanswered
    exact ⟨hstate.trans h.state, hwaiting.trans h.waiting, hanswered.trans h.answered, h.account,
      h.taken⟩
  rw [events_get]
  cases hother : keys other with
  | true =>
    refine ⟨_, waits, told, run_at_once atomicTable r (.reader s.shared.reads.length) (.get other),
      hkeep _ rfl rfl rfl, ?_⟩
    have hshown : r.state = readEntry _ := h.state
    rw [hs.get_eq other, SharedTable.version_of_shard (hkeys hother)]
    simp [ServiceEvent.atKeys, atomicTable, hother, hshown]
  | false => exact ⟨r, waits, told, .refl, hkeep r rfl rfl rfl, by
      simp [ServiceEvent.atKeys, hother]⟩

theorem Matches.sync (h : s.Matches host opened key r waits told) (hs : s.Writes host opened)
    {g : GroupCommit} {group : Group} (hidle : s.shared.applying = none)
    (hst : GroupCommit.Step host s.commit g)
    (hcommitted : g.committed = s.commit.committed ++ [group]) :
    Answers host opened key keys r (s.sync host g group) (s.events (s.sync host g group)) := by
  have hversion : (s.sync host g group).shared.version host key = s.shared.version host key :=
    SharedTable.version_scatter hidle key
  -- The new group is on disk, behind all that the key shows.
  have hle : s.shared.version host key ≤ s.shared.calls.length := SharedTable.version_le_length key
  have hshown : (s.sync host g group).shown host opened key = s.shown host opened key := by
    have hcalls : (s.sync host g group).shared.calls = s.shared.calls ++ [group.call] :=
      SharedTable.calls_scatter hidle
    rw [shown, shown, hversion, hcalls, List.take_append_of_le_length hle]
  have heffected : (s.sync host g group).effected host key = s.effected host key := by
    obtain ⟨more, hmore⟩ := (hst.access hs.inOrder).succeeded_grows
    have hnow : (s.sync host g group).commit.succeeded = s.commit.succeeded ++ more := hmore.symm
    rw [hs.length_calls] at hle
    rw [effected, effected, hversion, hnow, List.take_append_of_le_length hle]
  cases hst.seen with
  | nothing harrivals hresumed => exact h.silent hshown heffected harrivals hresumed rfl
  | call writer _ _ hsame => simp [hsame] at hcommitted
  | answer writer status _ _ hsame => simp [hsame] at hcommitted

theorem Matches.queue (h : s.Matches host opened key r waits told) (hs : s.Writes host opened)
    {g : GroupCommit} (ht : ({ s with commit := g } : Serving).Writes host opened)
    (hst : GroupCommit.Step host s.commit g) (hcommitted : g.committed = s.commit.committed) :
    Answers host opened key keys r { s with commit := g } (s.events { s with commit := g }) := by
  have heffected : ({ s with commit := g } : Serving).effected host key = s.effected host key :=
    effected_congr rfl ((hst.access hs.inOrder).succeeded_eq hcommitted)
  cases hst.seen with
  | nothing harrivals hresumed => exact h.silent rfl heffected harrivals hresumed rfl
  | call writer harrivals hresumed => exact h.call rfl heffected harrivals hresumed rfl
  | answer writer status harrivals hresumed =>
    exact h.answer ht rfl heffected harrivals hresumed rfl

end Steps

theorem answers_of_step (hs : s.Writes host opened) (hst : Step host s t)
    (hkeys : ∀ other, keys other = true →
      MemTable.shardFor host other = MemTable.shardFor host key)
    {r : TableRun} {waits told : Multiset Writer} (h : s.Matches host opened key r waits told) :
    Answers host opened key keys r t (s.events t) := by
  have ht := writes_step hs hst
  cases hst with
  | queue g hst hrun hcommitted hfinished => exact h.queue hs ht hst hcommitted
  | sync g group hidle hst hcommitted => exact h.sync hs hidle hst hcommitted
  | applyShard call shardIndex happlying => exact h.applyShard hs happlying
  | endCall call happlying => exact h.endCall happlying
  | get other => exact h.get hs other (hkeys other)

end Serving

namespace Observed

variable {host : Host} {opened : List Group} {key : Bytes} {keys : Bytes → Bool} {o o' : Observed}

/-- The atomic table has the history that clients see of the keys. -/
structure Shows (host : Host) (opened : List Group) (key : Bytes) (keys : Bytes → Bool)
    (o : Observed) (r : TableRun) : Prop where
  reachable : Reachable (StorageEngine.serving host opened) o.serving
  table : ∃ waits told, o.serving.Matches host opened key r waits told
  history : r.history = o.history.flatMap (ServiceEvent.atKeys keys)

theorem shows_initial (h : (observed host opened).initial o) (key : Bytes) (keys : Bytes → Bool) :
    o.Shows host opened key keys { state := readEntry (committedTable opened) } := by
  obtain ⟨s, hs, rfl⟩ := h
  refine ⟨.initial hs, ⟨0, 0, ?_⟩, rfl⟩
  obtain ⟨db, file, rest, -, -, rfl⟩ := hs
  exact ⟨rfl, rfl, rfl, rfl, rfl⟩

theorem shows_step {r : TableRun} (h : o.Shows host opened key keys r)
    (hkeys : ∀ other, keys other = true →
      MemTable.shardFor host other = MemTable.shardFor host key)
    (hst : Observed.Step host o o') :
    ∃ r', Relation.ReflTransGen (AtomicObject.Step atomicTable) r r' ∧
      o'.Shows host opened key keys r' := by
  obtain ⟨hst⟩ := hst
  obtain ⟨waits, told, hmatches⟩ := h.table
  obtain ⟨r', waits', told', hrun, hmatches', hhistory⟩ :=
    Serving.answers_of_step (Serving.writes_of_reachable h.reachable) hst hkeys hmatches
  refine ⟨r', hrun, .step h.reachable hst, ⟨waits', told', hmatches'⟩, ?_⟩
  rw [hhistory, h.history, List.flatMap_append]

/-- The keys of one shard are an atomic table. -/
theorem linearizable (h : Reachable (observed host opened) o)
    (hkeys : ∀ other, keys other = true →
      MemTable.shardFor host other = MemTable.shardFor host key) :
    Linearizable atomicTable (readEntry (committedTable opened))
      (o.history.flatMap (ServiceEvent.atKeys keys)) := by
  have hsimulated : ∃ r,
      Reachable (atomic Client atomicTable (readEntry (committedTable opened))) r ∧
        o.Shows host opened key keys r :=
    h.simulated (fun o ho => ⟨_, rfl, shows_initial ho key keys⟩)
      fun o o' r hr hst => shows_step hr hkeys hst
  obtain ⟨r, hr, hshows⟩ := hsimulated
  exact ⟨r, hr, hshows.history⟩

end Observed

end StorageEngine
