import StorageEngine.MemTable.Visibility

/-! `Stats` beside `ApplyBatches`.  `Stats` takes the locks of the shards one after another and adds
up their sizes, so it may see a call of `ApplyBatches` in some shards and not in others. -/

namespace StorageEngine

open Transition

namespace MemTable

/-- `shard.entries.size()`. -/
def size (table : MemTable) (shard : Fin kShardCount) : Nat := (table.shards shard).keys.length

/-- `Stats().entries` of a table that nobody changes. -/
def entryCount (table : MemTable) : Nat :=
  (List.finRange kShardCount).foldl (fun entries shard => entries + table.size shard) 0

def sizes (table : MemTable) (shards : List (Fin kShardCount)) : Nat :=
  (shards.map table.size).sum

theorem foldl_size (table : MemTable) (shards : List (Fin kShardCount)) (entries : Nat) :
    shards.foldl (fun entries shard => entries + table.size shard) entries =
      entries + table.sizes shards := by
  induction shards generalizing entries with
  | nil => rfl
  | cons shard shards ih =>
    rw [List.foldl_cons, ih, sizes, sizes, List.map_cons, List.sum_cons, Nat.add_assoc]

theorem entryCount_eq (table : MemTable) :
    table.entryCount = table.sizes (List.finRange kShardCount) := by
  rw [entryCount, foldl_size, Nat.zero_add]

/-- No shard of the first table is larger than that of the second. -/
def Grows (table later : MemTable) : Prop := ∀ shard, table.size shard ≤ later.size shard

theorem Grows.sizes {table later : MemTable} (h : table.Grows later)
    (shards : List (Fin kShardCount)) : table.sizes shards ≤ later.sizes shards := by
  induction shards with
  | nil => exact le_rfl
  | cons shard shards ih => exact Nat.add_le_add (h shard) ih

theorem length_keys_applyUpdate (entries : Shard) (update : PendingMemtableUpdate) :
    entries.keys.length ≤ (applyUpdate entries update).keys.length := by
  apply List.Subperm.length_le
  apply List.subperm_of_subset (AList.keys_nodup entries)
  intro key hkey
  rw [← AList.mem_keys] at hkey ⊢
  exact (AList.mem_insert _).mpr (.inr hkey)

theorem length_keys_foldl (updates : List PendingMemtableUpdate) (entries : Shard) :
    entries.keys.length ≤ (updates.foldl applyUpdate entries).keys.length := by
  induction updates generalizing entries with
  | nil => exact le_rfl
  | cons update updates ih => exact (length_keys_applyUpdate entries update).trans (ih _)

theorem grows_applyShard (table : MemTable) (scratch : PendingUpdates)
    (shardIndex : Fin kShardCount) : table.Grows (applyShard (table, scratch) shardIndex).1 := by
  intro shard
  rw [size, size, (applyShard_eq table scratch shardIndex shard).1]
  split
  · exact length_keys_foldl _ _
  · exact le_rfl

end MemTable

/-- A call of `Stats`: the shards it has visited, those it has yet to visit, and the sum so far.
The table at the call is kept for the history. -/
structure StatsCall where
  visited : List (Fin kShardCount) := []
  remaining : List (Fin kShardCount) := List.finRange kShardCount
  entries : Nat := 0
  start : MemTable

/-- What a call of `Stats` returned, with the tables at the call and at the return. -/
structure StatsReport where
  entries : Nat
  start : MemTable
  finish : MemTable

/-- The table with the calls that change and read it, and a caller of `Stats`. -/
structure Monitored where
  shared : SharedTable
  stats : Option StatsCall := none
  reports : List StatsReport := []

namespace Monitored

def visit (s : Monitored) (call : StatsCall) (shard : Fin kShardCount)
    (remaining : List (Fin kShardCount)) : StatsCall :=
  { call with
    visited := call.visited ++ [shard]
    remaining
    entries := call.entries + s.shared.table.size shard }

inductive Step (host : Host) : Monitored → Monitored → Prop
  | table (s : Monitored) {shared : SharedTable} (h : SharedTable.Step host s.shared shared) :
    Step host s { s with shared }
  | call (s : Monitored) (h : s.stats = none) :
    Step host s { s with stats := some { start := s.shared.table } }
  | visit (s : Monitored) {call : StatsCall} {shard : Fin kShardCount}
    {remaining : List (Fin kShardCount)} (h : s.stats = some call)
    (hremaining : call.remaining = shard :: remaining) :
    Step host s { s with stats := some (s.visit call shard remaining) }
  | finish (s : Monitored) {call : StatsCall} (h : s.stats = some call)
    (hremaining : call.remaining = []) :
    Step host s { s with
      stats := none
      reports := s.reports ++ [⟨call.entries, call.start, s.shared.table⟩] }

end Monitored

def monitored (host : Host) (start : MemTable) : System Monitored where
  initial s := s = { shared := { table := start } }
  step := Monitored.Step host

namespace Monitored

/-- The shards that a call has visited held as many entries, or fewer, when it began, and they hold
as many, or more, now. -/
structure Between (call : StatsCall) (table : MemTable) : Prop where
  shards : call.visited ++ call.remaining = List.finRange kShardCount
  grows : call.start.Grows table
  least : call.start.sizes call.visited ≤ call.entries
  most : call.entries ≤ table.sizes call.visited

structure Invariant (s : Monitored) : Prop where
  stats : ∀ call, s.stats = some call → Between call s.shared.table
  reports : ∀ r ∈ s.reports,
    r.start.entryCount ≤ r.entries ∧ r.entries ≤ r.finish.entryCount

theorem Between.mono {call : StatsCall} {table later : MemTable} (h : Between call table)
    (hgrows : table.Grows later) : Between call later where
  shards := h.shards
  grows shard := (h.grows shard).trans (hgrows shard)
  least := h.least
  most := h.most.trans (hgrows.sizes _)

theorem Between.visit {s : Monitored} {call : StatsCall} (h : Between call s.shared.table)
    {shard : Fin kShardCount} {remaining : List (Fin kShardCount)}
    (hremaining : call.remaining = shard :: remaining) :
    Between (s.visit call shard remaining) s.shared.table := by
  have hsum : ∀ table : MemTable,
      table.sizes (call.visited ++ [shard]) = table.sizes call.visited + table.size shard := by
    intro table
    simp [MemTable.sizes]
  exact
    { shards := by simpa [Monitored.visit, hremaining] using h.shards
      grows := h.grows
      least := (hsum _).trans_le (Nat.add_le_add h.least (h.grows shard))
      most := (Nat.add_le_add_right h.most _).trans_eq (hsum _).symm }

theorem grows_of_step {host : Host} {s t : SharedTable} (h : SharedTable.Step host s t) :
    s.table.Grows t.table := by
  cases h with
  | applyShard call shardIndex => exact MemTable.grows_applyShard _ _ _
  | scatter => exact fun _ => le_rfl
  | finish => exact fun _ => le_rfl
  | get => exact fun _ => le_rfl

theorem Invariant.step {host : Host} {s t : Monitored} (h : s.Invariant) (hst : Step host s t) :
    t.Invariant := by
  cases hst with
  | table hstep =>
    exact ⟨fun call hcall => (h.stats call hcall).mono (grows_of_step hstep), h.reports⟩
  | call hnone =>
    refine ⟨?_, h.reports⟩
    rintro call hcall
    cases hcall
    exact ⟨rfl, fun _ => le_rfl, le_rfl, le_rfl⟩
  | visit hcall hremaining =>
    refine ⟨?_, h.reports⟩
    rintro call' hcall'
    cases hcall'
    exact (h.stats _ hcall).visit hremaining
  | finish hcall hremaining =>
    have hbetween := h.stats _ hcall
    have hvisited := hbetween.shards
    rw [hremaining, List.append_nil] at hvisited
    refine ⟨by simp, List.forall_mem_append.mpr ⟨h.reports, List.forall_mem_singleton.mpr ?_⟩⟩
    rw [MemTable.entryCount_eq, MemTable.entryCount_eq, ← hvisited]
    exact ⟨hbetween.least, hbetween.most⟩

end Monitored

/-- Whatever calls of `ApplyBatches` go on meanwhile, `Stats` returns a number of entries between
that of the table when it was called and that of the table when it returns. -/
theorem stats_entries_between (host : Host) (start : MemTable) {s : Monitored}
    (h : Reachable (monitored host start) s) :
    ∀ r ∈ s.reports, r.start.entryCount ≤ r.entries ∧ r.entries ≤ r.finish.entryCount := by
  apply Monitored.Invariant.reports
  apply h.invariant
  · rintro s rfl
    exact ⟨by simp, by simp⟩
  · exact fun s t _ hs hst => hs.step hst

/-- A caller of `Stats` that nobody disturbs adds up what is left. -/
theorem Monitored.exists_report {host : Host} {start : MemTable} {s : Monitored}
    (h : Reachable (monitored host start) s) {call : StatsCall} (hcall : s.stats = some call) :
    ∃ t, Reachable (monitored host start) t ∧
      ⟨call.entries + s.shared.table.sizes call.remaining, call.start, s.shared.table⟩ ∈
        t.reports := by
  obtain ⟨visited, remaining, entries, table⟩ := call
  induction remaining generalizing s visited entries with
  | nil =>
    refine ⟨_, h.step (.finish s hcall rfl), List.mem_append_right _ ?_⟩
    simp [MemTable.sizes]
  | cons shard remaining ih =>
    obtain ⟨t, ht, hreport⟩ := ih (h.step (.visit s hcall rfl)) _ _ rfl
    refine ⟨t, ht, ?_⟩
    simpa [MemTable.sizes, Nat.add_assoc] using hreport

/-- `Stats` is called on a table with one entry, when `ApplyBatches` has scattered another one. -/
theorem stats_entries_between_scatter :
    ∃ start s, Reachable (monitored .sample start) s ∧ ∃ r ∈ s.reports, r.entries = 1 ∧
      r.start.entryCount ≤ r.entries ∧ r.entries ≤ r.finish.entryCount := by
  let start := (MemTable.new.applyBatches .sample [.put .new [97] [49]] 1 fun _ => []).1
  have hscattered : Reachable (monitored .sample start) _ :=
    .step (.initial rfl) (.table _ (.scatter ⟨[.put .new [98] [50]], 2⟩ rfl))
  obtain ⟨t, ht, hreport⟩ := Monitored.exists_report (hscattered.step (.call _ rfl)) rfl
  refine ⟨start, t, ht, _, hreport, ?_, stats_entries_between .sample start ht _ hreport⟩
  decide +kernel

end StorageEngine
