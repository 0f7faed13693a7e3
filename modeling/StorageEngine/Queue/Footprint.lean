import Mathlib.Data.List.Dedup
import StorageEngine.MemTable.Stats
import StorageEngine.Queue.Sessions

/-! What the table holds.  A deletion overwrites the slot of its key and never frees it, and
recovery replays the deletions of the log, so the table has one slot for each key that the log
mentions. -/

namespace StorageEngine

open Wal Io Transition

namespace MemTable

theorem entryCount_eq_length_keys (table : MemTable) : table.entryCount = table.keys.length := by
  rw [entryCount_eq, sizes, keys, List.length_flatMap]
  rfl

theorem Placed.mem_keys_iff {host : Host} {table : MemTable} (h : table.Placed host)
    (key : Bytes) : key ∈ table.keys ↔ table.slot host key ≠ none := by
  rw [keys, slot, Option.ne_none_iff_isSome, AList.lookup_isSome]
  simp only [List.mem_flatMap, List.mem_finRange, true_and]
  constructor
  · rintro ⟨shard, hkey⟩
    rw [h shard key hkey]
    exact hkey
  · exact fun hkey => ⟨_, hkey⟩

theorem map_fst_stamp (base : BitVec 64) (entries : List Entry) :
    (stamp base entries).map Prod.fst = entries.map Entry.key := by
  induction entries generalizing base with
  | nil => rfl
  | cons entry entries ih => rw [stamp, List.map_cons, List.map_cons, ih]

end MemTable

/-- The keys of all entries of the groups, deletions included. -/
def writtenKeys (groups : List Group) : List Bytes :=
  (groups.flatMap Group.entries).map Entry.key

theorem committedTable_ne_none_iff (groups : List Group) (key : Bytes) :
    committedTable groups key ≠ none ↔ key ∈ writtenKeys groups := by
  have hkeys : writtenKeys groups = (groups.flatMap Group.updates).map Prod.fst := by
    rw [writtenKeys, List.map_flatMap, List.map_flatMap]
    congr 1
    funext group
    exact (MemTable.map_fst_stamp _ _).symm
  rw [Ne, committedTable, KeyedUpdates.run_empty_eq_none_iff, hkeys, List.mem_map]
  simp only [not_forall, not_not, exists_prop]

theorem MemTable.Placed.entryCount {host : Host} {table : MemTable} (h : table.Placed host)
    {groups : List Group} (hslot : table.slot host = committedTable groups) :
    table.entryCount = (writtenKeys groups).dedup.length := by
  rw [entryCount_eq_length_keys]
  apply List.Perm.length_eq
  rw [List.perm_ext_iff_of_nodup h.nodup_keys (List.nodup_dedup _)]
  intro key
  rw [h.mem_keys_iff, hslot, committedTable_ne_none_iff, List.mem_dedup]

/-! ### Every key in its shard -/

theorem DB.placed_of_operation {host : Host} {db after : DB} (h : db.memtable.Placed host)
    (hoperation : DB.Operation host db after) : after.memtable.Placed host := by
  obtain ⟨calls, -, hrefines⟩ := DB.table_of_operations h (.single hoperation)
  exact hrefines.placed

theorem DB.placed_openDb {host : Host} {io : RecoverIo} {file after : Bytes} {db : DB}
    (h : DB.openDb host { recover := io } file = (.ok db, after)) : db.memtable.Placed host := by
  have hplaced := DB.placed_of_operation (MemTable.placed_new host) (.recover io file {})
  cases hrecover : DB.recover host io file {} with
  | mk status opened =>
    rw [hrecover] at hplaced
    cases hok : status.ok with
    | false => simp [DB.openDb, hrecover, hok] at h
    | true =>
      obtain ⟨rfl, -⟩ : opened.1 = db ∧ opened.2 = after := by
        simpa [DB.openDb, hrecover, hok] using h
      exact hplaced

/-- The database of a world, if it is open, is placed. -/
def World.Placed (host : Host) (w : World) : Prop :=
  ∀ db, w.db = some db → db.memtable.Placed host

theorem World.placed_none (host : Host) (file : Bytes) (synced committed : List Group) :
    World.Placed host ⟨file, none, synced, committed⟩ :=
  fun _ hdb => nomatch hdb

theorem placed_of_restarts {host : Host} {w : World} (h : Reachable (restarts host) w) :
    w.Placed host := by
  refine h.invariant ?_ fun s t _ hs hst => ?_
  · rintro _ rfl
    exact World.placed_none host _ _ _
  · cases hst with
    | session hstep =>
      cases hstep with
      | opens io hio hopen =>
        intro db hdb
        obtain rfl := Option.some.inj hdb
        exact DB.placed_openDb hopen
      | group io batches hbatches hok =>
        intro db hdb
        obtain rfl := Option.some.inj hdb
        exact DB.placed_of_operation (hs _ rfl) (.writeGroup io batches _ _)
      | close => exact World.placed_none host _ _ _
      | crash => exact World.placed_none host _ _ _
    | openFails io status hread hopen => exact World.placed_none host _ _ _
    | crash decoded cut hdecode hcut => exact World.placed_none host _ _ _

/-- While the database is open, `Stats` counts every key that a committed group has written, once,
whether or not it was deleted since, and in whichever session. -/
theorem stats_count_written_keys (host : Host) {e : Service} (h : Reachable (service host) e)
    {s : GroupCommit} (hs : e.session = some s) :
    s.db.memtable.entryCount = (writtenKeys s.committed).dedup.length := by
  obtain ⟨w, hw, hfollows⟩ := Service.exists_follows h
  obtain ⟨-, hdb, hcommitted, -⟩ := hfollows.running s hs
  have hstate := (consistent_of_restarts hw).state
  rw [hdb] at hstate
  rw [← hcommitted]
  exact (placed_of_restarts hw s.db hdb).entryCount hstate.slot

/-- A key is put, and the next batch deletes it and puts another one. -/
theorem stats_count_written_keys_deleted :
    ∃ (e : Service) (s : GroupCommit), Reachable (service .sample) e ∧ e.session = some s ∧
      s.db.memtable.get .sample [97] = .error (.notFound "key not found") ∧
      writtenKeys s.committed = [[97], [97], [98]] ∧
      s.db.memtable.entryCount = (writtenKeys s.committed).dedup.length := by
  have h : Reachable (service .sample) {} := .initial rfl
  have h := h.step (.opens { readv := .done 0 } {} [] rfl ⟨rfl, rfl, rfl, rfl⟩ rfl)
  have h := h.step (.queue rfl (.enterInline ⟨0, .put .new [97] [49]⟩ (by decide) rfl rfl)
    (by decide) (by decide))
  have h := h.step (.queue rfl (.inlineCall (.success 32) _ [] [] rfl) (by decide +kernel)
    (by decide +kernel))
  have h := h.step (.queue rfl (.inlineFinish _ _ [] [] rfl) (by decide +kernel)
    (by decide +kernel))
  have h := h.step (.queue rfl (.enterInline ⟨1, (WriteBatch.new.delete [97]).put [98] [50]⟩
    (by decide) rfl rfl) (by decide +kernel) (by decide +kernel))
  have h := h.step (.queue rfl (.inlineCall (.success 42) _ [] [] rfl) (by decide +kernel)
    (by decide +kernel))
  exact ⟨_, _, h, rfl, by decide +kernel, by decide +kernel,
    stats_count_written_keys .sample h rfl⟩

end StorageEngine
