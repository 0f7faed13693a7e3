import StorageEngine.Lib.Transition
import StorageEngine.MemTable.Sequential

/-! Readers beside `ApplyBatches`.  The second loop of `ApplyBatches` takes the lock of one shard
after another, and a `Get` takes that of its key's shard, so a step is one shard's updates or one
`Get`.  Calls of `ApplyBatches` follow one another. -/

namespace StorageEngine

open Transition

/-- A `Get`, with the number of calls that had reached the shard of the key, and the number of
those that had returned. -/
structure Read where
  key : Bytes
  result : Result Bytes
  version : Nat
  finished : Nat
  deriving DecidableEq

/-- The table, the lists of updates for each shard, the call in progress with the index of the
next shard, and the history of calls and reads. -/
structure SharedTable where
  table : MemTable
  scratch : PendingUpdates := fun _ => []
  applying : Option (MemTable.Call × Nat) := none
  finished : List MemTable.Call := []
  reads : List Read := []

namespace SharedTable

def calls (s : SharedTable) : List MemTable.Call := s.finished ++ s.applying.toList.map Prod.fst

/-- How many calls have reached the shard of the key. -/
def version (host : Host) (s : SharedTable) (key : Bytes) : Nat :=
  match s.applying with
  | none => s.finished.length
  | some (_, shardIndex) =>
    s.finished.length + if (MemTable.shardFor host key).val < shardIndex then 1 else 0

/-- The first loop of `ApplyBatches`. -/
def scatter (host : Host) (s : SharedTable) (call : MemTable.Call) : SharedTable :=
  { s with
    scratch := (call.batches.foldl
      (fun state batch => batch.entries.foldl (MemTable.scatterEntry host) state)
      (s.scratch, call.baseSequence)).1
    applying := some (call, 0) }

def applyShard (s : SharedTable) (call : MemTable.Call) (shardIndex : Fin kShardCount) :
    SharedTable :=
  { s with
    table := (MemTable.applyShard (s.table, s.scratch) shardIndex).1
    scratch := (MemTable.applyShard (s.table, s.scratch) shardIndex).2
    applying := some (call, shardIndex.val + 1) }

def finish (s : SharedTable) (call : MemTable.Call) : SharedTable :=
  { s with applying := none, finished := s.finished ++ [call] }

def get (host : Host) (s : SharedTable) (key : Bytes) : SharedTable :=
  { s with
    reads := s.reads ++ [⟨key, s.table.get host key, s.version host key, s.finished.length⟩] }

inductive Step (host : Host) : SharedTable → SharedTable → Prop
  | scatter {s : SharedTable} (call : MemTable.Call) (h : s.applying = none) :
      Step host s (s.scatter host call)
  | applyShard {s : SharedTable} (call : MemTable.Call) (shardIndex : Fin kShardCount)
      (h : s.applying = some (call, shardIndex.val)) : Step host s (s.applyShard call shardIndex)
  | finish {s : SharedTable} (call : MemTable.Call) (h : s.applying = some (call, kShardCount)) :
      Step host s (s.finish call)
  | get {s : SharedTable} (key : Bytes) : Step host s (s.get host key)

end SharedTable

/-- Calls and reads on a table that starts out with any contents. -/
def sharedTable (host : Host) (start : MemTable) : System SharedTable where
  initial s := s = { table := start }
  step := SharedTable.Step host

namespace MemTable

/-- The updates of a call that the shard gets. -/
def Call.updates (host : Host) (call : Call) (shard : Fin kShardCount) :
    List PendingMemtableUpdate :=
  (pending call.baseSequence call.entries).filter fun update =>
    shardFor host update.entry.key = shard

theorem applyCalls_append (host : Host) (map : Bytes → Option MemEntry) (calls : List Call)
    (call : Call) (key : Bytes) :
    applyCalls map (calls ++ [call]) key = KeyedUpdates.run (applyCalls map calls)
      ((call.updates host (shardFor host key)).map pendingUpdate) key := by
  rw [Call.updates, run_filter_shard host _ rfl, map_pendingUpdate_pending,
    ← applyEntries_eq_run _ _ call.deleteEmpty, applyCalls, List.foldl_append]
  rfl

end MemTable

theorem MemTable.slot_applyShard (host : Host) (table : MemTable) (scratch : PendingUpdates)
    (shard : Fin kShardCount) (key : Bytes) :
    (applyShard (table, scratch) shard).1.slot host key =
      if shardFor host key = shard then
        KeyedUpdates.run (table.slot host) ((scratch shard).map pendingUpdate) key
      else table.slot host key := by
  rw [slot, (applyShard_eq table scratch shard (shardFor host key)).1]
  by_cases h : shardFor host key = shard
  · subst h
    rw [if_pos rfl, if_pos rfl, lookup_foldl_applyUpdate]
    exact KeyedUpdates.run_congr _ rfl
  · rw [if_neg h, if_neg h]
    rfl

namespace SharedTable

variable {host : Host} {start : MemTable} {s : SharedTable}

theorem version_le_length (key : Bytes) : s.version host key ≤ s.calls.length := by
  unfold version calls
  split
  · simp
  · next happlying =>
    simp only [happlying, Option.toList_some, List.map_singleton, List.length_append,
      List.length_singleton]
    split <;> omega

theorem finished_le_version (key : Bytes) : s.finished.length ≤ s.version host key := by
  unfold version
  split <;> omega

/-- Shards are reached in order. -/
theorem version_le_of_shard_le {key key' : Bytes}
    (h : MemTable.shardFor host key ≤ MemTable.shardFor host key') :
    s.version host key' ≤ s.version host key := by
  unfold version
  split
  · exact le_rfl
  · rw [Fin.le_def] at h
    split <;> split <;> omega

theorem version_of_shard {key key' : Bytes}
    (h : MemTable.shardFor host key = MemTable.shardFor host key') :
    s.version host key = s.version host key' := by
  rw [version, version, h]

/-- The lists of the shards that the call in progress has yet to visit hold its updates, and all
others are empty; every key has the value that the calls which reached its shard give it; and what
was read stays in the past of every shard up to the one it was read from. -/
structure Invariant (host : Host) (start : MemTable) (s : SharedTable) : Prop where
  idle : s.applying = none → ∀ shard, s.scratch shard = []
  busy : ∀ call shardIndex, s.applying = some (call, shardIndex) → ∀ shard : Fin kShardCount,
    s.scratch shard = if shard.val < shardIndex then [] else call.updates host shard
  slots : ∀ key, s.table.slot host key =
    MemTable.applyCalls (start.slot host) (s.calls.take (s.version host key)) key
  results : ∀ r ∈ s.reads,
    r.result = readEntry (MemTable.applyCalls (start.slot host) (s.calls.take r.version)) r.key ∧
      r.finished ≤ r.version ∧ r.version ≤ s.calls.length
  past : ∀ r ∈ s.reads, ∀ key, MemTable.shardFor host key ≤ MemTable.shardFor host r.key →
    r.version ≤ s.version host key
  order : s.reads.Pairwise fun r r' =>
    MemTable.shardFor host r'.key ≤ MemTable.shardFor host r.key → r.version ≤ r'.version

/-- Steps of the writing thread.  Calls are only added, and versions only grow. -/
theorem invariant_of_calls (h : s.Invariant host start) {t : SharedTable}
    (hidle : t.applying = none → ∀ shard, t.scratch shard = [])
    (hbusy : ∀ call shardIndex, t.applying = some (call, shardIndex) → ∀ shard : Fin kShardCount,
      t.scratch shard = if shard.val < shardIndex then [] else call.updates host shard)
    (hslots : ∀ key, t.table.slot host key =
      MemTable.applyCalls (start.slot host) (t.calls.take (t.version host key)) key)
    (hcalls : s.calls <+: t.calls) (hversion : ∀ key, s.version host key ≤ t.version host key)
    (hreads : t.reads = s.reads) : t.Invariant host start where
  idle := hidle
  busy := hbusy
  slots := hslots
  results := by
    rw [hreads]
    intro r hr
    obtain ⟨hresult, hfinished, hversion⟩ := h.results r hr
    obtain ⟨more, hmore⟩ := hcalls
    refine ⟨?_, hfinished, hmore ▸ ?_⟩
    · rw [hresult, ← hmore, List.take_append_of_le_length hversion]
    · rw [List.length_append]
      omega
  past := by
    rw [hreads]
    exact fun r hr key hkey => Nat.le_trans (h.past r hr key hkey) (hversion key)
  order := hreads ▸ h.order

section Calls

variable {call : MemTable.Call}

theorem calls_scatter (h : s.applying = none) :
    (s.scatter host call).calls = s.calls ++ [call] := by
  simp [calls, scatter, h]

theorem calls_applyShard {shardIndex : Fin kShardCount}
    (h : s.applying = some (call, shardIndex.val)) :
    (s.applyShard call shardIndex).calls = s.calls := by
  simp [calls, applyShard, h]

theorem calls_finish {shardIndex : Nat} (h : s.applying = some (call, shardIndex)) :
    (s.finish call).calls = s.calls := by
  simp [calls, finish, h]

theorem version_scatter (h : s.applying = none) (key : Bytes) :
    (s.scatter host call).version host key = s.version host key := by
  simp [version, scatter, h]

/-- The call now counts for the keys of the shard. -/
theorem version_applyShard {shardIndex : Fin kShardCount}
    (h : s.applying = some (call, shardIndex.val)) (key : Bytes) :
    (s.applyShard call shardIndex).version host key = s.version host key +
      if MemTable.shardFor host key = shardIndex then 1 else 0 := by
  simp only [version, applyShard, h, Fin.ext_iff]
  split <;> split <;> split <;> omega

theorem version_finish (h : s.applying = some (call, kShardCount)) (key : Bytes) :
    (s.finish call).version host key = s.version host key := by
  simp [version, finish, h]

end Calls

/-- A shard of the call in progress. -/
theorem invariant_applyShard (h : s.Invariant host start) {call : MemTable.Call}
    {shardIndex : Fin kShardCount} (happlying : s.applying = some (call, shardIndex.val)) :
    (s.applyShard call shardIndex).Invariant host start := by
  have hbusy := h.busy call shardIndex.val happlying
  refine invariant_of_calls h (by simp [applyShard]) ?_ ?_
    (calls_applyShard happlying ▸ List.prefix_rfl)
    (fun key => by rw [version_applyShard happlying]; omega) rfl
  · intro call' index happlying' shard
    obtain ⟨rfl, rfl⟩ : call = call' ∧ shardIndex.val + 1 = index := by
      simpa [applyShard] using happlying'
    refine (MemTable.applyShard_eq s.table s.scratch shardIndex shard).2.trans ?_
    rw [hbusy shard]
    by_cases hshard : shard = shardIndex
    · rw [if_pos hshard, if_pos (by omega)]
    · have hlt : shard.val < shardIndex.val ↔ shard.val < shardIndex.val + 1 := by
        have : shard.val ≠ shardIndex.val := fun h => hshard (Fin.ext h)
        omega
      simp only [if_neg hshard, hlt]
  · intro key
    have hslot := h.slots key
    refine (MemTable.slot_applyShard host s.table s.scratch shardIndex key).trans ?_
    rw [version_applyShard happlying, calls_applyShard happlying]
    by_cases hkey : MemTable.shardFor host key = shardIndex
    · -- The key's shard is the one that is updated, and the call now counts for the key.
      subst hkey
      have hcalls : s.calls = s.finished ++ [call] := by simp [calls, happlying]
      have hversion : s.version host key = s.finished.length := by simp [version, happlying]
      rw [hversion, hcalls, List.take_left] at hslot
      rw [if_pos rfl, if_pos rfl, hversion, hcalls, List.take_of_length_le (by simp),
        MemTable.applyCalls_append host, hbusy, if_neg (Nat.lt_irrefl _)]
      exact KeyedUpdates.run_congr _ hslot
    · rw [if_neg hkey, if_neg hkey, Nat.add_zero, hslot]

theorem invariant_step {t : SharedTable} (h : s.Invariant host start) (hst : Step host s t) :
    t.Invariant host start := by
  cases hst with
  | scatter call happlying =>
    refine invariant_of_calls h (by simp [scatter]) ?_ ?_
      (by rw [calls_scatter happlying]; exact List.prefix_append ..)
      (fun key => by rw [version_scatter happlying]) rfl
    · intro call' shardIndex happlying' shard
      obtain ⟨rfl, rfl⟩ : call = call' ∧ 0 = shardIndex := by simpa [scatter] using happlying'
      simp only [scatter, Wal.foldl_batches, MemTable.foldl_scatterEntry, h.idle happlying]
      rfl
    · intro key
      rw [version_scatter happlying, calls_scatter happlying,
        List.take_append_of_le_length (version_le_length key)]
      exact h.slots key
  | applyShard call shardIndex happlying => exact invariant_applyShard h happlying
  | finish call happlying =>
    refine invariant_of_calls h ?_ (by simp [finish]) ?_
      (calls_finish happlying ▸ List.prefix_rfl)
      (fun key => by rw [version_finish happlying]) rfl
    · intro _ shard
      exact (h.busy call kShardCount happlying shard).trans (if_pos shard.isLt)
    · intro key
      rw [version_finish happlying, calls_finish happlying]
      exact h.slots key
  | get key =>
    refine
      { idle := h.idle
        busy := h.busy
        slots := h.slots
        results := ?_
        past := ?_
        order := ?_ }
    · refine List.forall_mem_append.mpr
        ⟨h.results, List.forall_mem_singleton.mpr ⟨?_, ?_, version_le_length key⟩⟩
      · exact MemTable.get_eq_readEntry (h.slots key)
      · exact finished_le_version key
    · refine List.forall_mem_append.mpr ⟨h.past, List.forall_mem_singleton.mpr ?_⟩
      exact fun key' hkey => version_le_of_shard_le hkey
    · refine List.pairwise_append.mpr
        ⟨h.order, List.pairwise_singleton _ _, fun r hr r' hr' => ?_⟩
      rw [List.mem_singleton.mp hr']
      exact h.past r hr key

theorem invariant_of_reachable (h : Reachable (sharedTable host start) s) :
    s.Invariant host start := by
  refine h.invariant ?_ fun s t _ hs hst => invariant_step hs hst
  rintro _ rfl
  constructor <;> simp [calls, MemTable.applyCalls]

end SharedTable

/-- A batch with two keys, which `Host.sample` puts into the first shard and the second. -/
def MemTable.Call.sample : MemTable.Call where
  batches := [(WriteBatch.new.put [] [1#8]).put [0#8] [2#8]]
  baseSequence := 1#64

/-- Both keys are read between the first shard and the second. -/
theorem SharedTable.exists_split_reads : ∃ s, Reachable (sharedTable Host.sample .new) s ∧
    s.calls = [.sample] ∧
    s.reads = [⟨[], .ok [1#8], 1, 0⟩, ⟨[0#8], .error (.notFound "key not found"), 0, 0⟩] := by
  have hstart : Reachable (sharedTable Host.sample .new) { table := .new } := .initial rfl
  have hscatter := hstart.step (.scatter .sample rfl)
  have hfirst := hscatter.step (.applyShard .sample ⟨0, by decide⟩ rfl)
  have hreads := (hfirst.step (.get [])).step (.get [0#8])
  exact ⟨_, hreads, rfl, by decide +kernel⟩

/-- Every `Get` returns what its key holds in the map that the first calls of `ApplyBatches`, entry
by entry, make of the table at the start.  To later ones of the same key no fewer calls show, and
never fewer than have returned. -/
theorem gets_atomic_per_key (host : Host) (start : MemTable) (s : SharedTable)
    (h : Reachable (sharedTable host start) s) :
    (∀ r ∈ s.reads,
      r.result = readEntry (MemTable.applyCalls (start.slot host) (s.calls.take r.version)) r.key ∧
        r.finished ≤ r.version ∧ r.version ≤ s.calls.length) ∧
    s.reads.Pairwise fun r r' => r.key = r'.key → r.version ≤ r'.version := by
  have hinv := SharedTable.invariant_of_reachable h
  refine ⟨hinv.results, hinv.order.imp fun {r r'} hle hkey => hle ?_⟩
  rw [hkey, Fin.le_def]

theorem gets_atomic_per_key_split_reads : ∃ s, Reachable (sharedTable Host.sample .new) s ∧
    s.reads = [⟨[], .ok [1#8], 1, 0⟩, ⟨[0#8], .error (.notFound "key not found"), 0, 0⟩] ∧
    (∀ r ∈ s.reads,
      r.result = readEntry (MemTable.applyCalls (fun _ => none)
          (([.sample] : List MemTable.Call).take r.version)) r.key ∧
        r.finished ≤ r.version ∧ r.version ≤ 1) ∧
    readEntry (MemTable.applyCalls (fun _ => none) [.sample]) [] = .ok [1#8] ∧
    s.reads.Pairwise fun r r' => r.key = r'.key → r.version ≤ r'.version := by
  obtain ⟨s, hs, hcalls, hreads⟩ := SharedTable.exists_split_reads
  obtain ⟨hresults, horder⟩ := gets_atomic_per_key Host.sample .new s hs
  rw [hcalls, MemTable.slot_new] at hresults
  exact ⟨s, hs, hreads, hresults, by decide +kernel, horder⟩

/-- Every `Get` returns what its key holds after the calls of `ApplyBatches` that show to it.  Once
a call shows to a `Get`, it shows to every later `Get` of a key in the same shard or in one before
it, and to every `Get` after the call has returned. -/
theorem batches_visible_in_shard_order (host : Host) (start : MemTable) (s : SharedTable)
    (h : Reachable (sharedTable host start) s) :
    (∀ r ∈ s.reads, r.version ≤ s.calls.length ∧
      r.result =
        readEntry (MemTable.applyCalls (start.slot host) (s.calls.take r.version)) r.key) ∧
    s.reads.Pairwise fun r r' => ∀ i < r.version,
      MemTable.shardFor host r'.key ≤ MemTable.shardFor host r.key ∨ i < r'.finished →
      i < r'.version := by
  have hinv := SharedTable.invariant_of_reachable h
  refine ⟨fun r hr => ⟨(hinv.results r hr).2.2, (hinv.results r hr).1⟩, ?_⟩
  refine hinv.order.imp_of_mem fun {r r'} _ hr' hle i hi hshow => ?_
  rcases hshow with hshard | hreturned
  · exact Nat.lt_of_lt_of_le hi (hle hshard)
  · exact Nat.lt_of_lt_of_le hreturned (hinv.results r' hr').2.1

theorem batches_visible_in_shard_order_split_reads :
    ∃ s, Reachable (sharedTable Host.sample .new) s ∧
      s.reads = [⟨[], .ok [1#8], 1, 0⟩, ⟨[0#8], .error (.notFound "key not found"), 0, 0⟩] ∧
      (∀ r ∈ s.reads, r.version ≤ 1 ∧
        r.result = readEntry (MemTable.applyCalls (fun _ => none)
          (([.sample] : List MemTable.Call).take r.version)) r.key) ∧
      s.reads.Pairwise fun r r' => ∀ i < r.version,
        MemTable.shardFor Host.sample r'.key ≤ MemTable.shardFor Host.sample r.key ∨
          i < r'.finished →
        i < r'.version := by
  obtain ⟨s, hs, hcalls, hreads⟩ := SharedTable.exists_split_reads
  obtain ⟨hresults, horder⟩ := batches_visible_in_shard_order Host.sample .new s hs
  rw [hcalls, MemTable.slot_new] at hresults
  exact ⟨s, hs, hreads, hresults, horder⟩

/-- A `Get` returns the new value of one key of a batch, and the next one finds that another key of
the batch is not there yet. -/
theorem batch_visible_in_part : ∃ (s : SharedTable) (r r' : Read),
    Reachable (sharedTable Host.sample .new) s ∧ s.calls = [.sample] ∧ s.reads = [r, r'] ∧
    r.key = [] ∧ r.result = .ok [1#8] ∧
    r'.key = [0#8] ∧ r'.result = .error (.notFound "key not found") := by
  obtain ⟨s, hs, hcalls, hreads⟩ := SharedTable.exists_split_reads
  exact ⟨s, _, _, hs, hcalls, hreads, rfl, rfl, rfl, rfl⟩

end StorageEngine
