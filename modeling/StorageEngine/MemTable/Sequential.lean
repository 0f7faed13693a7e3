import StorageEngine.MemTable

/-! The sharded table against a map.  `applyEntries` sets the keys of a list of entries one at a
time; a table that keeps every key in its own shard refines the map, and `ApplyBatches` keeps it
so, whatever the hash is and however often it is called. -/

namespace StorageEngine

open Wal (groupEntries)

/-! ### The map -/

/-- One entry: a put sets the value, a delete sets a tombstone. -/
def applyEntry (table : Bytes → Option MemEntry) (sequence : BitVec 64) (entry : Entry) :
    Bytes → Option MemEntry :=
  Function.update table entry.key (some
    (match entry.type with
    | .kPut => { sequence, deleted := false, value := entry.value }
    | .kDelete => { sequence, deleted := true, value := [] }))

/-- Entry `i` gets sequence number `base + i`. -/
def applyEntries (table : Bytes → Option MemEntry) (base : BitVec 64) :
    List Entry → Bytes → Option MemEntry
  | [] => table
  | entry :: entries => applyEntries (applyEntry table base entry) (base + 1#64) entries

def readEntry (table : Bytes → Option MemEntry) (key : Bytes) : Result Bytes :=
  match table key with
  | none => .error (.notFound "key not found")
  | some slot => if slot.deleted then .error (.notFound "key not found") else .ok slot.value

theorem applyEntries_eq_run (table : Bytes → Option MemEntry) (base : BitVec 64)
    {entries : List Entry}
    (h : ∀ entry ∈ entries, entry.type = .kDelete → entry.value = []) :
    applyEntries table base entries = KeyedUpdates.run table (MemTable.stamp base entries) := by
  induction entries generalizing table base with
  | nil => rfl
  | cons entry entries ih =>
    obtain ⟨hentry, hentries⟩ := List.forall_mem_cons.mp h
    have hslot : applyEntry table base entry =
        Function.update table entry.key (some (MemTable.entrySlot base entry)) := by
      obtain ⟨type, key, value⟩ := entry
      cases type with
      | kPut => rfl
      | kDelete =>
        obtain rfl : value = [] := hentry rfl
        rfl
    rw [applyEntries, hslot, ih _ _ hentries]
    rfl

/-- Keys that no entry mentions keep their slots. -/
theorem applyEntries_of_notMem (table : Bytes → Option MemEntry) (base : BitVec 64)
    {entries : List Entry} {key : Bytes} (h : ∀ entry ∈ entries, entry.key ≠ key) :
    applyEntries table base entries key = table key := by
  induction entries generalizing table base with
  | nil => rfl
  | cons entry entries ih =>
    obtain ⟨hentry, hentries⟩ := List.forall_mem_cons.mp h
    rw [applyEntries, ih _ _ hentries, applyEntry, Function.update_of_ne hentry.symm]

theorem MemTable.get_eq_readEntry {host : Host} {table : MemTable} {key : Bytes}
    {map : Bytes → Option MemEntry} (h : table.slot host key = map key) :
    table.get host key = readEntry map key := by
  unfold slot at h
  cases hmap : map key <;> simp [get, readEntry, h, hmap]

namespace MemTable

/-! ### Keys and shards -/

/-- Every key lies in its own shard. -/
def Placed (host : Host) (table : MemTable) : Prop :=
  ∀ shard key, key ∈ table.shards shard → shardFor host key = shard

/-- The keys of all shards. -/
def keys (table : MemTable) : List Bytes :=
  (List.finRange kShardCount).flatMap fun shard => (table.shards shard).keys

theorem placed_new (host : Host) : new.Placed host := by
  intro shard key hkey
  exact absurd hkey (AList.notMem_empty key)

theorem Placed.nodup_keys {host : Host} {table : MemTable} (h : table.Placed host) :
    table.keys.Nodup := by
  rw [keys, List.nodup_flatMap]
  refine ⟨fun shard _ => AList.keys_nodup _, (List.nodup_finRange _).imp ?_⟩
  intro a b hne key hkey hkey'
  exact hne ((h _ key hkey).symm.trans (h _ key hkey'))

theorem mem_foldl_applyUpdate {updates : List PendingMemtableUpdate} {entries : Shard}
    {key : Bytes} (h : key ∈ updates.foldl applyUpdate entries) :
    key ∈ entries ∨ ∃ update ∈ updates, update.entry.key = key := by
  induction updates generalizing entries with
  | nil => exact Or.inl h
  | cons update updates ih =>
    rcases ih h with hmem | ⟨later, hlater, hkey⟩
    · rw [applyUpdate_eq, AList.mem_insert] at hmem
      rcases hmem with rfl | hmem
      · exact Or.inr ⟨update, by simp, rfl⟩
      · exact Or.inl hmem
    · exact Or.inr ⟨later, by simp [hlater], hkey⟩

theorem Placed.applyBatches {host : Host} {table : MemTable} (h : table.Placed host)
    (batches : List WriteBatch) (base : BitVec 64) {scratch : PendingUpdates}
    (hscratch : ∀ shard, scratch shard = []) :
    (applyBatches host table batches base scratch).1.Placed host := by
  intro shard key hkey
  rw [shards_applyBatches host table batches base hscratch] at hkey
  rcases mem_foldl_applyUpdate hkey with hold | ⟨update, hupdate, rfl⟩
  · exact h shard key hold
  · exact of_decide_eq_true (List.mem_filter.mp hupdate).2

/-! ### Calls -/

/-- A call of `ApplyBatches`. -/
structure Call where
  batches : List WriteBatch
  baseSequence : BitVec 64

def Call.entries (call : Call) : List Entry := groupEntries call.batches

theorem Call.deleteEmpty (call : Call) :
    ∀ entry ∈ call.entries, entry.type = .kDelete → entry.value = [] := by
  intro entry hentry
  obtain ⟨batch, -, hmem⟩ := List.mem_flatMap.mp hentry
  exact batch.deleteEmpty entry hmem

def Call.run (host : Host) (state : MemTable × PendingUpdates) (call : Call) :
    MemTable × PendingUpdates :=
  state.1.applyBatches host call.batches call.baseSequence state.2

/-- Calls one after the other, on the same scratch. -/
def runCalls (host : Host) (state : MemTable × PendingUpdates) (calls : List Call) :
    MemTable × PendingUpdates :=
  calls.foldl (Call.run host) state

/-- The entries of the calls, one at a time. -/
def applyCalls (map : Bytes → Option MemEntry) (calls : List Call) : Bytes → Option MemEntry :=
  calls.foldl (fun map call => applyEntries map call.baseSequence call.entries) map

/-- A table and the scratch between two calls: every key is in its own shard and there once, the
table reads as the map, and the scratch is empty. -/
structure Refines (host : Host) (state : MemTable × PendingUpdates)
    (map : Bytes → Option MemEntry) : Prop where
  placed : state.1.Placed host
  unique : state.1.keys.Nodup
  slot : ∀ key, state.1.slot host key = map key
  get : ∀ key, state.1.get host key = readEntry map key
  scratch : ∀ shard, state.2 shard = []

section Refines

variable {host : Host} {state : MemTable × PendingUpdates} {map : Bytes → Option MemEntry}

theorem refines_of_placed (hplaced : state.1.Placed host) (hslot : state.1.slot host = map)
    (hscratch : ∀ shard, state.2 shard = []) : Refines host state map where
  placed := hplaced
  unique := hplaced.nodup_keys
  slot := congrFun hslot
  get key := get_eq_readEntry (congrFun hslot key)
  scratch := hscratch

theorem Refines.run (h : Refines host state map) (call : Call) :
    Refines host (call.run host state) (applyEntries map call.baseSequence call.entries) := by
  refine refines_of_placed (h.placed.applyBatches _ _ h.scratch) ?_
    (scratch_applyBatches host _ _ _ _)
  rw [Call.run, slot_applyBatches host _ _ _ h.scratch, funext h.slot,
    applyEntries_eq_run _ _ call.deleteEmpty]
  rfl

theorem Refines.runCalls (h : Refines host state map) (calls : List Call) :
    Refines host (runCalls host state calls) (applyCalls map calls) := by
  induction calls generalizing state map with
  | nil => exact h
  | cons call calls ih => exact ih (h.run call)

end Refines

theorem applyCalls_of_notMem {map : Bytes → Option MemEntry} {calls : List Call} {key : Bytes}
    (h : ∀ call ∈ calls, ∀ entry ∈ call.entries, entry.key ≠ key) :
    applyCalls map calls key = map key := by
  induction calls generalizing map with
  | nil => rfl
  | cons call calls ih =>
    obtain ⟨hcall, hcalls⟩ := List.forall_mem_cons.mp h
    exact (ih hcalls).trans (applyEntries_of_notMem map call.baseSequence hcall)

/-- Any sequence of calls on a table with every key in its own shard leaves what the entries, taken
one at a time in order, would leave, and no key changes that they do not mention. -/
theorem sharded_apply_sequential (host : Host) (table : MemTable) (hplaced : table.Placed host)
    (scratch : PendingUpdates) (hscratch : ∀ shard, scratch shard = []) (calls : List Call) :
    Refines host (runCalls host (table, scratch) calls) (applyCalls (table.slot host) calls) ∧
      ∀ key, (∀ call ∈ calls, ∀ entry ∈ call.entries, entry.key ≠ key) →
        (runCalls host (table, scratch) calls).1.slot host key = table.slot host key := by
  have hstart : Refines host (table, scratch) (table.slot host) :=
    refines_of_placed hplaced rfl hscratch
  have hend := hstart.runCalls calls
  refine ⟨hend, fun key hkey => ?_⟩
  rw [hend.slot, applyCalls_of_notMem hkey]

theorem sharded_apply_sequential_put_delete :
    let calls : List Call := [⟨[.put .new [97] [49], .put .new [98] [50]], 1⟩,
      ⟨[.delete .new [97]], 3⟩]
    Refines .sample (runCalls .sample (.new, fun _ => []) calls)
        (applyCalls (new.slot .sample) calls) ∧
      applyCalls (new.slot .sample) calls [97] = some { sequence := 3, deleted := true } := by
  intro calls
  obtain ⟨hrefines, -⟩ := sharded_apply_sequential .sample .new (placed_new .sample)
    (fun _ => []) (fun _ => rfl) calls
  exact ⟨hrefines, by decide +kernel⟩

end MemTable

end StorageEngine
