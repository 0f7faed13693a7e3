import StorageEngine.Queue.Linearizable

/-! Reads of keys in different shards.  `ApplyBatches` goes from shard to shard, and a client that
reads two keys meanwhile may see a batch at the first one and not at the second.  No atomic table
has such a history, so the keys that are atomic together are those of one shard. -/

namespace StorageEngine

open AtomicObject Wal Io Transition

/-! ### A history that no atomic table has -/

def putBoth (a b value : Bytes) : WriteBatch := (WriteBatch.new.put a value).put b value

/-- A batch is written to two keys, and shows at the first one before it does at the second. -/
def tornHistory (a b value : Bytes) : List (Event Client TableOp Answer) :=
  [.invoke (.writer 0) (.write (putBoth a b value)),
    .invoke (.reader 0) (.get a), .respond (.reader 0) (some (.value (.ok value))),
    .invoke (.reader 1) (.get b),
    .respond (.reader 1) (some (.value (.error (.notFound "key not found"))))]

theorem foldl_putBoth (a b value : Bytes) (view : Bytes → Result Bytes) :
    (putBoth a b value).entries.foldl overwrite view =
      Function.update (Function.update view a (.ok value)) b (.ok value) := rfl

/-- The table has the batch or not, and it does from the time on when the first reader has seen it,
so that the second one does not miss it. -/
structure Whole (a b value : Bytes) (r : TableRun) : Prop where
  state : r.state a = .error (.notFound "key not found") ∨ r.state b = .ok value
  ops : ∀ x ∈ r.waiting, x = (.writer 0, .write (putBoth a b value)) ∨ x = (.reader 0, .get a) ∨
    x = (.reader 1, .get b) ∧ r.state b = .ok value
  first : (.reader 0, .value (.ok value)) ∈ r.answered → r.state b = .ok value
  seen : .respond (.reader 0) (some (.value (.ok value))) ∈ r.history → r.state b = .ok value
  second : (.reader 1, .value (.error (.notFound "key not found"))) ∉ r.answered
  missed : .respond (.reader 1) (some (.value (.error (.notFound "key not found")))) ∉ r.history

/-- The second reader comes after the answer of the first one. -/
theorem invoked_in_tornHistory {a b value : Bytes} {history : List (Event Client TableOp Answer)}
    {client : Client} {op : TableOp}
    (h : history ++ [.invoke client op] <+: tornHistory a b value) :
    (client, op) = (.writer 0, .write (putBoth a b value)) ∨ (client, op) = (.reader 0, .get a) ∨
      (client, op) = (.reader 1, .get b) ∧
        .respond (.reader 0) (some (.value (.ok value))) ∈ history := by
  obtain ⟨rest, hrest⟩ := h
  have hat : (tornHistory a b value)[history.length]? = some (.invoke client op) := by
    simp [← hrest]
  have hbefore : history = (tornHistory a b value).take history.length := by
    simp [← hrest]
  -- The invocations are in the places 0, 1 and 3.
  rcases hlength : history.length with _ | _ | _ | _ | _ | n <;>
    simp [hlength, tornHistory] at hat hbefore
  · exact .inl (by rw [hat.1, hat.2])
  · exact .inr (.inl (by rw [hat.1, hat.2]))
  · exact .inr (.inr ⟨by rw [hat.1, hat.2], by simp [hbefore]⟩)

theorem Whole.effect {a b value : Bytes} {r : TableRun} (h : Whole a b value r) {client : Client}
    {op : TableOp} {rest : Multiset (Client × TableOp)}
    (hwaiting : r.waiting = (client, op) ::ₘ rest) :
    Whole a b value { r with
      state := (atomicTable.apply op r.state).1
      waiting := rest
      answered := (client, (atomicTable.apply op r.state).2) ::ₘ r.answered } := by
  have hrest : ∀ x ∈ rest, x ∈ r.waiting := fun x hx => hwaiting ▸ Multiset.mem_cons_of_mem hx
  rcases h.ops (client, op) (by simp [hwaiting]) with hop | hop | ⟨hop, hstate⟩ <;>
    obtain ⟨rfl, rfl⟩ := Prod.mk.inj hop
  · have hstate : (atomicTable.apply (.write (putBoth a b value)) r.state).1 b = .ok value := by
      show (putBoth a b value).entries.foldl overwrite r.state b = _
      rw [foldl_putBoth, Function.update_self]
    refine ⟨.inr hstate, fun x hx => ?_, fun _ => hstate, fun _ => hstate, ?_, h.missed⟩
    · exact (h.ops x (hrest x hx)).imp_right (.imp_right fun hx => ⟨hx.1, hstate⟩)
    · simpa using h.second
  · refine ⟨h.state, fun x hx => h.ops x (hrest x hx), fun hmem => ?_, h.seen, ?_, h.missed⟩
    · rcases Multiset.mem_cons.mp hmem with heq | hmem
      · have hvalue : r.state a = .ok value := by simpa [atomicTable, eq_comm] using heq
        exact h.state.resolve_left (by simp [hvalue])
      · exact h.first hmem
    · simpa using h.second
  · refine ⟨h.state, fun x hx => h.ops x (hrest x hx), fun hmem => hstate, h.seen, ?_, h.missed⟩
    have hvalue : (atomicTable.apply (.get b) r.state).2 = .value (.ok value) := by
      rw [← hstate]
      rfl
    simpa [hvalue] using h.second

theorem Whole.step {a b value : Bytes} {r r' : TableRun} (h : Whole a b value r)
    (hst : AtomicObject.Step atomicTable r r') (hfront : r'.history <+: tornHistory a b value) :
    Whole a b value r' := by
  cases hst with
  | invoke client op =>
    refine ⟨h.state, fun x hx => ?_, h.first, by simpa using h.seen, h.second,
      by simpa using h.missed⟩
    rcases Multiset.mem_cons.mp hx with rfl | hx
    · exact (invoked_in_tornHistory hfront).imp_right
        (.imp_right fun hop => ⟨hop.1, h.seen hop.2⟩)
    · exact h.ops x hx
  | effect client op rest hwaiting => exact h.effect hwaiting
  | respond client answer rest hanswered =>
    have hrest : ∀ x ∈ rest, x ∈ r.answered := fun x hx =>
      hanswered ▸ Multiset.mem_cons_of_mem hx
    have hanswer : (client, answer) ∈ r.answered := by simp [hanswered]
    refine ⟨h.state, h.ops, fun hmem => h.first (hrest _ hmem), fun hmem => ?_,
      fun hmem => h.second (hrest _ hmem), fun hmem => ?_⟩
    · rcases List.mem_append.mp hmem with hmem | hmem
      · exact h.seen hmem
      · simp only [List.mem_singleton, Event.respond.injEq, Option.some.injEq] at hmem
        obtain ⟨rfl, rfl⟩ := hmem
        exact h.first hanswer
    · rcases List.mem_append.mp hmem with hmem | hmem
      · exact h.missed hmem
      · simp only [List.mem_singleton, Event.respond.injEq, Option.some.injEq] at hmem
        obtain ⟨rfl, rfl⟩ := hmem
        exact h.second hanswer
  | fail client op rest hwaiting =>
    have hrest : ∀ x ∈ rest, x ∈ r.waiting := fun x hx => hwaiting ▸ Multiset.mem_cons_of_mem hx
    exact ⟨h.state, fun x hx => h.ops x (hrest x hx), h.first, by simpa using h.seen, h.second,
      by simpa using h.missed⟩

theorem not_linearizable_tornHistory (a b value : Bytes) :
    ¬Linearizable atomicTable (readEntry (committedTable [])) (tornHistory a b value) := by
  intro h
  obtain ⟨r, hr, hhistory⟩ := @h.exists_run _ _ _ _ _ _ _ (Whole a b value)
    ⟨.inl rfl, by simp, by simp, by simp, by simp, by simp⟩
    fun r r' hr hst hfront => hr.step hst hfront
  exact hr.missed (by simp [hhistory, tornHistory])

/-! ### A run with that history -/

theorem writeGroup_success (host : Host) (db : DB) (batches : List WriteBatch) (file : Bytes)
    (h : ((db.nextGroup batches).encode host).length < 2 ^ 31) :
    (db.writeGroup host (.success ((db.nextGroup batches).encode host).length) batches file).1 =
      .Ok := by
  rw [DB.status_writeGroup, DB.syncStatus, WriteIo.success, writevAndFDataSync_done_iff,
    Int32.toInt_ofNat_of_lt h]
  exact ⟨rfl, by decide⟩

namespace Observed

variable {host : Host} {opened : List Group} {o : Observed}

theorem serving_of_reachable (h : Reachable (observed host opened) o) :
    Reachable (StorageEngine.serving host opened) o.serving := by
  induction h with
  | initial h =>
    obtain ⟨s, hs, rfl⟩ := h
    exact .initial hs
  | step _ hst ih =>
    obtain ⟨hst⟩ := hst
    exact .step ih hst

/-- The kernel writes all of an inline group, and syncs it. -/
theorem reachable_synced (h : Reachable (observed host opened) o)
    (hidle : o.serving.shared.applying = none) {writer : Writer}
    (hinline : o.serving.commit.inline = [(writer, .started)]) {group : Group}
    (hgroup : group = o.serving.commit.db.nextGroup [writer.batch])
    (hsize : (group.encode host).length < 2 ^ 31) :
    ∃ o', Reachable (observed host opened) o' ∧
      o'.serving.shared.applying = some (group.call, 0) ∧
      o'.serving.shared.finished = o.serving.shared.finished ∧
      o'.serving.shared.reads = o.serving.shared.reads ∧ o'.history = o.history := by
  subst hgroup
  obtain ⟨s, history⟩ := o
  obtain ⟨io, hok⟩ : ∃ io, (s.commit.callStatus host io [writer]).ok = true :=
    ⟨_, congrArg Status.ok (writeGroup_success host s.commit.db [writer.batch] s.commit.file hsize)⟩
  have hcommitted := GroupCommit.committed_call host s.commit io [writer]
  rw [hok, if_pos rfl] at hcommitted
  refine ⟨_, h.step ⟨.sync _ _ hidle (.inlineCall _ writer [] [] hinline) hcommitted⟩, rfl, rfl,
    rfl, ?_⟩
  simp [Serving.events, Serving.sync, SharedTable.scatter, GroupCommit.call]

/-- `ApplyBatches` gets to any shard without clients noticing. -/
theorem reachable_at_shard (h : Reachable (observed host opened) o) {call : MemTable.Call}
    {shardIndex n : Nat} (happlying : o.serving.shared.applying = some (call, shardIndex))
    (hle : shardIndex ≤ n) (hn : n ≤ kShardCount) :
    ∃ o', Reachable (observed host opened) o' ∧ o'.serving.shared.applying = some (call, n) ∧
      o'.serving.shared.finished = o.serving.shared.finished ∧
      o'.serving.shared.reads = o.serving.shared.reads ∧ o'.history = o.history := by
  obtain ⟨left, rfl⟩ := Nat.exists_eq_add_of_le hle
  induction left generalizing o shardIndex with
  | zero => exact ⟨o, h, happlying, rfl, rfl, rfl⟩
  | succ left ih =>
    have hlt : shardIndex < kShardCount := by omega
    have hnext := h.step ⟨.applyShard call ⟨shardIndex, hlt⟩ happlying⟩
    obtain ⟨o', ho', happlying', hfinished, hreads, hhistory⟩ :=
      ih hnext rfl (by omega) (by simp only; omega)
    refine ⟨o', ho', ?_, hfinished, hreads, ?_⟩
    · rw [happlying', Nat.add_right_comm]
      rfl
    · simpa [Serving.events, Serving.applyShard, SharedTable.applyShard] using hhistory

end Observed

theorem length_encode_putBoth (host : Host) (base : BitVec 64) (a b value : Bytes) :
    ((⟨base, [putBoth a b value]⟩ : Group).encode host).length =
      39 + a.length + b.length + 2 * value.length := by
  have hentries : (⟨base, [putBoth a b value]⟩ : Group).entries =
      [⟨.kPut, a, value⟩, ⟨.kPut, b, value⟩] := rfl
  rw [Group.length_encode, Group.length_payload, hentries]
  simp only [List.flatMap_cons, List.flatMap_nil, List.length_append, length_entryBytes,
    kEntryHeaderSize, List.length_nil]
  omega

/-- A batch of both keys is on disk, and `ApplyBatches` is at its first shard. -/
theorem exists_applying (host : Host) {a b value : Bytes}
    (hsize : a.length + b.length + 2 * value.length < 2 ^ 30) :
    ∃ o, Reachable (observed host []) o ∧
      o.serving.shared.applying = some (⟨[putBoth a b value], 1⟩, 0) ∧
      o.serving.shared.finished = [] ∧ o.serving.shared.reads = [] ∧
      o.history = [.call ⟨0, putBoth a b value⟩] := by
  have h : Reachable (observed host []) { serving :=
      { commit := { db := {}, file := [], committed := [] }, shared := { table := .new } } } :=
    .initial ⟨_, ⟨{}, [], [], ⟨rfl, rfl, rfl⟩, by simp, rfl⟩, rfl⟩
  have h := h.step ⟨.queue _ (.enterInline ⟨0, putBoth a b value⟩ (by simp) rfl rfl) rfl rfl
    (by simp)⟩
  have hlength : ((⟨1, [putBoth a b value]⟩ : Group).encode host).length < 2 ^ 31 := by
    rw [length_encode_putBoth]
    omega
  exact Observed.reachable_synced h rfl rfl rfl hlength

/-- The batch has reached the shard of the first key and not that of the second. -/
theorem get_of_applying {host : Host} {a b value : Bytes} {o : Observed} {shardIndex : Nat}
    (ho : Reachable (observed host []) o)
    (happlying : o.serving.shared.applying = some (⟨[putBoth a b value], 1⟩, shardIndex))
    (hfinished : o.serving.shared.finished = [])
    (ha : (MemTable.shardFor host a).val < shardIndex)
    (hb : shardIndex ≤ (MemTable.shardFor host b).val) :
    o.serving.shared.table.get host a = .ok value ∧
      o.serving.shared.table.get host b = .error (.notFound "key not found") := by
  have hwrites := Serving.writes_of_reachable (Observed.serving_of_reachable ho)
  have hne : a ≠ b := by
    rintro rfl
    omega
  have hcalls : o.serving.shared.calls = [] ++ [⟨[putBoth a b value], 1⟩] := by
    simp [SharedTable.calls, happlying, hfinished]
  have hversion : o.serving.shared.version host a = 1 := by
    simp [SharedTable.version, happlying, hfinished, ha]
  have hversion' : o.serving.shared.version host b = 0 := by
    simp [SharedTable.version, happlying, hfinished, Nat.not_lt.mpr hb]
  constructor
  · rw [hwrites.get_eq, hversion, hcalls, List.take_of_length_le (by simp),
      readEntry_applyCalls_append]
    show (putBoth a b value).entries.foldl overwrite _ a = _
    rw [foldl_putBoth, Function.update_of_ne hne, Function.update_self]
  · rw [hwrites.get_eq, hversion']
    rfl

theorem exists_torn_read (host : Host) {a b value : Bytes}
    (hsize : a.length + b.length + 2 * value.length < 2 ^ 30)
    (hshard : MemTable.shardFor host a < MemTable.shardFor host b) :
    ∃ o, Reachable (observed host []) o ∧
      o.history = [.call ⟨0, putBoth a b value⟩, .get 0 a (.ok value),
        .get 1 b (.error (.notFound "key not found"))] := by
  obtain ⟨o, ho, happlying, hfinished, hreads, hhistory⟩ := exists_applying host hsize
  obtain ⟨o', ho', happlying', hfinished', hreads', hhistory'⟩ :=
    Observed.reachable_at_shard ho happlying
      (show 0 ≤ (MemTable.shardFor host a).val + 1 by omega) (by omega)
  obtain ⟨hfirst, hsecond⟩ := get_of_applying ho' happlying' (hfinished'.trans hfinished)
    (by omega) (by omega)
  refine ⟨_, (ho'.step ⟨.get a⟩).step ⟨.get b⟩, ?_⟩
  rw [Serving.events_get, Serving.events_get]
  simp [Serving.get, SharedTable.get, hfirst, hsecond, hreads', hreads, hhistory', hhistory]

/-- The keys of one shard are an atomic table, in every run.  Two keys of different shards are not:
there is a run in which a batch of both keys shows at one of them and later not yet at the other,
and no atomic table has such a history. -/
theorem keys_linearizable (host : Host) (keys : Bytes → Bool) :
    ((∀ a b, keys a = true → keys b = true →
        MemTable.shardFor host a = MemTable.shardFor host b) →
      ∀ (opened : List Group) (o : Observed), Reachable (observed host opened) o →
        Linearizable atomicTable (readEntry (committedTable opened))
          (o.history.flatMap (ServiceEvent.atKeys keys))) ∧
    ∀ a b, keys a = true → keys b = true → a.length + b.length < 2 ^ 29 →
      MemTable.shardFor host a ≠ MemTable.shardFor host b →
      ∃ o first second, Reachable (observed host []) o ∧
        ((first, second) = (a, b) ∨ (first, second) = (b, a)) ∧
        o.history = [.call ⟨0, putBoth first second [49]⟩, .get 0 first (.ok [49]),
          .get 1 second (.error (.notFound "key not found"))] ∧
        ¬Linearizable atomicTable (readEntry (committedTable []))
          (o.history.flatMap (ServiceEvent.atKeys keys)) := by
  constructor
  · intro hkeys opened o ho
    by_cases hsome : ∃ a, keys a = true
    · obtain ⟨a, ha⟩ := hsome
      exact Observed.linearizable ho fun other hother => hkeys other a hother ha
    · exact @Observed.linearizable _ _ [] _ _ ho fun other hother => absurd ⟨other, hother⟩ hsome
  · have htorn : ∀ a b, keys a = true → keys b = true → a.length + b.length < 2 ^ 29 →
        MemTable.shardFor host a < MemTable.shardFor host b →
        ∃ o, Reachable (observed host []) o ∧
          o.history = [.call ⟨0, putBoth a b [49]⟩, .get 0 a (.ok [49]),
            .get 1 b (.error (.notFound "key not found"))] ∧
          ¬Linearizable atomicTable (readEntry (committedTable []))
            (o.history.flatMap (ServiceEvent.atKeys keys)) := by
      intro a b ha hb hsize hlt
      obtain ⟨o, ho, hhistory⟩ := @exists_torn_read host a b [49] (by simp; omega) hlt
      refine ⟨o, ho, hhistory, ?_⟩
      have htornHistory : o.history.flatMap (ServiceEvent.atKeys keys) = tornHistory a b [49] := by
        simp [hhistory, ServiceEvent.atKeys, tornHistory, ha, hb]
      rw [htornHistory]
      exact not_linearizable_tornHistory a b [49]
    intro a b ha hb hsize hne
    rcases lt_or_gt_of_ne hne with hlt | hlt
    · obtain ⟨o, ho, hhistory, hnot⟩ := htorn a b ha hb hsize hlt
      exact ⟨o, a, b, ho, .inl rfl, hhistory, hnot⟩
    · obtain ⟨o, ho, hhistory, hnot⟩ := htorn b a hb ha (by omega) hlt
      exact ⟨o, b, a, ho, .inr rfl, hhistory, hnot⟩

/-- A key for itself, and two keys of different shards. -/
theorem keys_linearizable_two_shards :
    (∀ o, Reachable (observed .sample []) o →
      Linearizable atomicTable (readEntry (committedTable []))
        (o.history.flatMap (ServiceEvent.atKeys (· == [97])))) ∧
    ∃ o first second, Reachable (observed .sample []) o ∧
      ((first, second) = ([], [97]) ∨ (first, second) = ([97], [])) ∧
      o.history = [.call ⟨0, putBoth first second [49]⟩, .get 0 first (.ok [49]),
        .get 1 second (.error (.notFound "key not found"))] ∧
      ¬Linearizable atomicTable (readEntry (committedTable []))
        (o.history.flatMap (ServiceEvent.atKeys fun key => key == [] || key == [97])) :=
  ⟨(keys_linearizable .sample (· == [97])).1 (by simp) [],
    (keys_linearizable .sample fun key => key == [] || key == [97]).2 [] [97] rfl rfl (by decide)
      (by decide)⟩

end StorageEngine
