import Mathlib.Data.List.AList
import Mathlib.Order.Fin.Basic
import StorageEngine.Lib.KeyedUpdates
import StorageEngine.Wal.Encode

/-! The sharded table of `memtable.cc`.  `applyBatches` first sorts the entries of all batches into
one list for each shard and then applies the lists shard by shard.  Seen through its slots, the
table afterwards is the one that the entries, taken one at a time in order, would leave. -/

namespace StorageEngine

open Wal (groupEntries)

structure MemEntry where
  sequence : BitVec 64 := 0#64
  deleted : Bool := false
  value : Bytes := []
  deriving DecidableEq, Repr

def kShardCount : Nat := 16

/-- The `std::unordered_map` of a shard. -/
abbrev Shard := AList fun _ : Bytes => MemEntry

structure PendingMemtableUpdate where
  entry : Entry
  sequence : BitVec 64
  deriving DecidableEq, Repr

abbrev PendingUpdates := Fin kShardCount → List PendingMemtableUpdate

structure MemTable where
  shards : Fin kShardCount → Shard

namespace MemTable

def new : MemTable := ⟨fun _ => ∅⟩

def shardFor (host : Host) (key : Bytes) : Fin kShardCount :=
  ⟨host.hash key % kShardCount, Nat.mod_lt _ (by decide)⟩

def get (host : Host) (table : MemTable) (key : Bytes) : Result Bytes :=
  match (table.shards (shardFor host key)).lookup key with
  | none => .error (.notFound "key not found")
  | some slot => if slot.deleted then .error (.notFound "key not found") else .ok slot.value

/-- The body of the first loop: the entry joins the list of its shard with the next sequence
number. -/
def scatterEntry (host : Host) (state : PendingUpdates × BitVec 64) (entry : Entry) :
    PendingUpdates × BitVec 64 :=
  let (scratch, sequence) := state
  let shard := shardFor host entry.key
  (Function.update scratch shard (scratch shard ++ [{ entry, sequence }]), sequence + 1#64)

def applyUpdate (entries : Shard) (update : PendingMemtableUpdate) : Shard :=
  let slot := (entries.lookup update.entry.key).getD {}
  entries.insert update.entry.key
    { slot with
      sequence := update.sequence
      deleted := update.entry.type == .kDelete
      value := update.entry.value }

/-- The body of the second loop: one shard's updates, under its lock. -/
def applyShard (state : MemTable × PendingUpdates) (shardIndex : Fin kShardCount) :
    MemTable × PendingUpdates :=
  let (table, scratch) := state
  let updates := scratch shardIndex
  if updates.isEmpty then
    (table, scratch)
  else
    (⟨Function.update table.shards shardIndex
        (updates.foldl applyUpdate (table.shards shardIndex))⟩,
      Function.update scratch shardIndex [])

def applyBatches (host : Host) (table : MemTable) (batches : List WriteBatch)
    (baseSequence : BitVec 64) (scratch : PendingUpdates) : MemTable × PendingUpdates :=
  let (scratch, _) := batches.foldl
    (fun state batch => batch.entries.foldl (scatterEntry host) state) (scratch, baseSequence)
  (List.finRange kShardCount).foldl applyShard (table, scratch)

/-! ### The table as a map -/

def slot (host : Host) (table : MemTable) (key : Bytes) : Option MemEntry :=
  (table.shards (shardFor host key)).lookup key

@[simp] theorem slot_new (host : Host) : new.slot host = fun _ => none := by
  funext key
  exact AList.lookup_empty key

def entrySlot (sequence : BitVec 64) (entry : Entry) : MemEntry where
  sequence := sequence
  deleted := entry.type == .kDelete
  value := entry.value

/-- The updates of a list of entries: entry `i` sets its key with sequence number `base + i`. -/
def stamp (base : BitVec 64) : List Entry → List (Bytes × MemEntry)
  | [] => []
  | entry :: entries => (entry.key, entrySlot base entry) :: stamp (base + 1#64) entries

theorem stamp_append (base : BitVec 64) (as bs : List Entry) :
    stamp base (as ++ bs) = stamp base as ++ stamp (base + BitVec.ofNat 64 as.length) bs := by
  induction as generalizing base with
  | nil => simp [stamp]
  | cons a as ih =>
    rw [List.cons_append, stamp, ih, stamp, List.length_cons, Nat.add_comm as.length,
      BitVec.ofNat_add, ← BitVec.add_assoc]
    rfl

def pendingUpdate (update : PendingMemtableUpdate) : Bytes × MemEntry :=
  (update.entry.key, entrySlot update.sequence update.entry)

def pending (base : BitVec 64) : List Entry → List PendingMemtableUpdate
  | [] => []
  | entry :: entries => { entry, sequence := base } :: pending (base + 1#64) entries

theorem map_pendingUpdate_pending (base : BitVec 64) (entries : List Entry) :
    (pending base entries).map pendingUpdate = stamp base entries := by
  induction entries generalizing base with
  | nil => rfl
  | cons entry entries ih => rw [pending, List.map_cons, ih]; rfl

theorem foldl_scatterEntry (host : Host) (entries : List Entry) (scratch : PendingUpdates)
    (base : BitVec 64) (shard : Fin kShardCount) :
    (entries.foldl (scatterEntry host) (scratch, base)).1 shard =
      scratch shard ++ (pending base entries).filter fun update =>
        shardFor host update.entry.key = shard := by
  induction entries generalizing scratch base with
  | nil => simp [pending]
  | cons entry entries ih =>
    rw [List.foldl_cons, scatterEntry, ih, pending]
    by_cases h : shardFor host entry.key = shard
    · subst h
      simp
    · rw [Function.update_of_ne (Ne.symm h)]
      simp [h]

theorem applyUpdate_eq (entries : Shard) (update : PendingMemtableUpdate) :
    applyUpdate entries update =
      entries.insert update.entry.key (entrySlot update.sequence update.entry) := rfl

theorem lookup_foldl_applyUpdate (updates : List PendingMemtableUpdate) (entries : Shard)
    (key : Bytes) : (updates.foldl applyUpdate entries).lookup key =
      KeyedUpdates.run (fun k => entries.lookup k) (updates.map pendingUpdate) key := by
  induction updates generalizing entries with
  | nil => rfl
  | cons update updates ih =>
    rw [List.foldl_cons, ih, List.map_cons, KeyedUpdates.run_cons, applyUpdate_eq]
    congr 1
    funext k
    by_cases h : k = update.entry.key
    · subst h
      simp [AList.lookup_insert, pendingUpdate]
    · rw [AList.lookup_insert_ne h, Function.update_of_ne]
      exact h

theorem applyShard_eq (table : MemTable) (scratch : PendingUpdates)
    (shardIndex shard : Fin kShardCount) :
    (applyShard (table, scratch) shardIndex).1.shards shard =
        (if shard = shardIndex then (scratch shard).foldl applyUpdate (table.shards shard)
          else table.shards shard) ∧
      (applyShard (table, scratch) shardIndex).2 shard =
        if shard = shardIndex then [] else scratch shard := by
  rw [applyShard]
  split
  · next hempty =>
    by_cases h : shard = shardIndex
    · subst h
      simp [List.isEmpty_iff.mp hempty]
    · simp [h]
  · by_cases h : shard = shardIndex
    · subst h
      simp
    · simp [h]

/-- The second loop applies the updates of the shards it visits, and of no others, and leaves
their lists empty. -/
theorem foldl_applyShard (shards : List (Fin kShardCount)) (hnodup : shards.Nodup)
    (table : MemTable) (scratch : PendingUpdates) (shard : Fin kShardCount) :
    (shards.foldl applyShard (table, scratch)).1.shards shard =
        (if shard ∈ shards then (scratch shard).foldl applyUpdate (table.shards shard)
          else table.shards shard) ∧
      (shards.foldl applyShard (table, scratch)).2 shard =
        if shard ∈ shards then [] else scratch shard := by
  induction shards generalizing table scratch with
  | nil => simp
  | cons first shards ih =>
    obtain ⟨hfirst, hrest⟩ := List.nodup_cons.mp hnodup
    obtain ⟨hshard, hupdates⟩ := applyShard_eq table scratch first shard
    obtain ⟨htable, hscratch⟩ := ih hrest (applyShard (table, scratch) first).1
      (applyShard (table, scratch) first).2
    rw [List.foldl_cons, htable, hscratch, hshard, hupdates]
    by_cases h : shard = first
    · subst h
      simp [hfirst]
    · simp [h]

/-- To a key, the updates of its shard are all updates. -/
theorem run_filter_shard (host : Host) {m m' : Bytes → Option MemEntry}
    (updates : List PendingMemtableUpdate) {key : Bytes} (hm : m key = m' key) :
    KeyedUpdates.run m ((updates.filter fun update =>
        shardFor host update.entry.key = shardFor host key).map pendingUpdate) key =
      KeyedUpdates.run m' (updates.map pendingUpdate) key := by
  have hfilter := KeyedUpdates.run_filter (fun k => decide (shardFor host k = shardFor host key))
    (updates.map pendingUpdate) (k := key) (by simp) hm
  rw [List.filter_map] at hfilter
  exact hfilter

/-- A shard takes the updates of its own keys, in their order. -/
theorem shards_applyBatches (host : Host) (table : MemTable) (batches : List WriteBatch)
    (base : BitVec 64) {scratch : PendingUpdates} (hscratch : ∀ shard, scratch shard = [])
    (shard : Fin kShardCount) :
    (applyBatches host table batches base scratch).1.shards shard =
      ((pending base (groupEntries batches)).filter fun update =>
        shardFor host update.entry.key = shard).foldl applyUpdate (table.shards shard) := by
  have hshard := (foldl_applyShard (List.finRange kShardCount) (List.nodup_finRange _) table
    (batches.foldl (fun state batch => batch.entries.foldl (scatterEntry host) state)
      (scratch, base)).1 shard).1
  rw [if_pos (List.mem_finRange _), Wal.foldl_batches, foldl_scatterEntry, hscratch,
    List.nil_append] at hshard
  rw [applyBatches, Wal.foldl_batches]
  exact hshard

/-- Applying batches to a table sets the keys of their entries one at a time, in order. -/
theorem slot_applyBatches (host : Host) (table : MemTable) (batches : List WriteBatch)
    (base : BitVec 64) {scratch : PendingUpdates} (hscratch : ∀ shard, scratch shard = []) :
    (applyBatches host table batches base scratch).1.slot host =
      KeyedUpdates.run (table.slot host) (stamp base (groupEntries batches)) := by
  funext key
  rw [slot, shards_applyBatches host table batches base hscratch, lookup_foldl_applyUpdate,
    ← map_pendingUpdate_pending]
  exact run_filter_shard host _ rfl

theorem scratch_applyBatches (host : Host) (table : MemTable) (batches : List WriteBatch)
    (base : BitVec 64) (scratch : PendingUpdates) (shard : Fin kShardCount) :
    (applyBatches host table batches base scratch).2 shard = [] := by
  have := (foldl_applyShard (List.finRange kShardCount) (List.nodup_finRange _) table
    (batches.foldl (fun state batch => batch.entries.foldl (scatterEntry host) state)
      (scratch, base)).1 shard).2
  rwa [if_pos (List.mem_finRange _)] at this

end MemTable

end StorageEngine
