import Mathlib.Data.List.Fold
import Mathlib.Data.List.MinMax
import Mathlib.Order.Nat
import StorageEngine.Db.Sessions

/-! Sequence numbers over runs of sessions.  `ApplyBatches` overwrites a slot without looking at the
sequence number in it, so that the newest entry wins only because every path keeps the numbers
increasing: `writeGroup` starts each group at the counter and moves it past the group, and `recover`
rebuilds the counter past every group of the log. -/

namespace StorageEngine

open Wal Io Transition

/-! ### The numbers of one group -/

def Wal.DecodedBatch.limit (decoded : DecodedBatch) : Nat :=
  decoded.baseSequence.toNat + decoded.batch.entries.length

/-- The first sequence number past a group. -/
def Wal.Group.limit (group : Group) : Nat := group.baseSequence.toNat + group.entries.length

theorem toNat_add_ofNat {base : BitVec 64} {n : Nat} (h : base.toNat + n < 2 ^ 64) :
    (base + BitVec.ofNat 64 n).toNat = base.toNat + n := by
  rw [BitVec.toNat_add, BitVec.toNat_ofNat, Nat.mod_eq_of_lt (show n < 2 ^ 64 by omega),
    Nat.mod_eq_of_lt h]

theorem sequence_of_mem_stamp {base : BitVec 64} {entries : List Entry}
    (h : base.toNat + entries.length < 2 ^ 64) {update : Bytes × MemEntry}
    (hupdate : update ∈ MemTable.stamp base entries) :
    base.toNat ≤ update.2.sequence.toNat ∧
      update.2.sequence.toNat < base.toNat + entries.length := by
  induction entries generalizing base with
  | nil => simp [MemTable.stamp] at hupdate
  | cons entry entries ih =>
    rw [List.length_cons] at h ⊢
    rcases List.mem_cons.mp hupdate with rfl | hrest
    · exact ⟨Nat.le_refl _, by show base.toNat < _; omega⟩
    · have hnext : (base + 1#64).toNat = base.toNat + 1 := toNat_add_ofNat (by omega)
      have := ih (by omega) hrest
      omega

theorem pairwise_stamp {base : BitVec 64} {entries : List Entry}
    (h : base.toNat + entries.length < 2 ^ 64) :
    (MemTable.stamp base entries).Pairwise fun u v =>
      u.2.sequence.toNat < v.2.sequence.toNat := by
  induction entries generalizing base with
  | nil => exact .nil
  | cons entry entries ih =>
    rw [List.length_cons] at h
    have hnext : (base + 1#64).toNat = base.toNat + 1 := toNat_add_ofNat (by omega)
    refine .cons (fun u hu => ?_) (ih (by omega))
    have := sequence_of_mem_stamp (by omega) hu
    show base.toNat < _
    omega

/-- The updates of groups whose ranges follow one another carry increasing numbers. -/
theorem pairwise_updates {groups : List Group} (hlimit : ∀ g ∈ groups, g.limit < 2 ^ 64)
    (hgroups : groups.Pairwise fun a b => a.limit ≤ b.baseSequence.toNat) :
    (groups.flatMap Group.updates).Pairwise fun u v =>
      u.2.sequence.toNat < v.2.sequence.toNat := by
  rw [List.pairwise_flatMap]
  refine ⟨fun g hg => pairwise_stamp (hlimit g hg), hgroups.imp_of_mem ?_⟩
  intro a b ha hb hab u hu v hv
  have := sequence_of_mem_stamp (hlimit a ha) hu
  have := sequence_of_mem_stamp (hlimit b hb) hv
  unfold Group.limit at hab
  omega

/-! ### The counter after recovery -/

theorem toNat_stdMax (a b : BitVec 64) : (stdMax a b).toNat = max a.toNat b.toNat := by
  unfold stdMax
  split
  · next h => rw [BitVec.lt_def] at h; omega
  · next h => rw [BitVec.lt_def] at h; omega

theorem toNat_raiseSequence {last : BitVec 64} {decoded : DecodedBatch}
    (h : decoded.limit < 2 ^ 64) :
    (DB.raiseSequence last decoded).toNat = max last.toNat decoded.limit := by
  rw [DB.raiseSequence, toNat_stdMax, toNat_add_ofNat h]
  rfl

theorem toNat_foldl_raiseSequence (batches : List DecodedBatch) (last : BitVec 64)
    (h : ∀ d ∈ batches, d.limit < 2 ^ 64) :
    (batches.foldl DB.raiseSequence last).toNat =
      (batches.map DecodedBatch.limit).foldl max last.toNat := by
  induction batches generalizing last with
  | nil => rfl
  | cons d batches ih =>
    obtain ⟨hd, hbatches⟩ := List.forall_mem_cons.mp h
    rw [List.foldl_cons, ih _ hbatches, toNat_raiseSequence hd, List.map_cons, List.foldl_cons]

/-- The greatest end of the ranges of `groups`. -/
def lastLimit (groups : List Group) : Nat := (groups.map Group.limit).foldl max 0

theorem lastLimit_eq_foldr (groups : List Group) :
    lastLimit groups = (groups.map Group.limit).foldr max ⊥ :=
  List.foldl_eq_foldr

theorem limit_le_lastLimit {groups : List Group} {g : Group} (hg : g ∈ groups) :
    g.limit ≤ lastLimit groups := by
  rw [lastLimit_eq_foldr]
  exact List.le_max_of_le (List.mem_map_of_mem hg) (Nat.le_refl _)

theorem lastLimit_le {groups : List Group} {bound : Nat} (h : ∀ g ∈ groups, g.limit ≤ bound) :
    lastLimit groups ≤ bound := by
  rw [lastLimit_eq_foldr]
  exact List.max_le_of_forall_le _ _ (List.forall_mem_map.mpr h)

theorem DB.Recovered.toNat_nextSequence {host : Host} {groups : List Group} {db : DB}
    (h : db.Recovered host groups) (hgroups : ∀ g ∈ groups, g.limit + 1 < 2 ^ 64) :
    db.nextSequence.toNat = lastLimit groups + 1 := by
  have hmax : (DB.maxSequence (groups.map Group.decoded)).toNat = lastLimit groups := by
    rw [DB.maxSequence, toNat_foldl_raiseSequence, List.map_map]
    · rfl
    · intro d hd
      obtain ⟨g, hg, rfl⟩ := List.mem_map.mp hd
      exact Nat.lt_of_succ_lt (hgroups g hg)
  have hlast : lastLimit groups ≤ 2 ^ 64 - 2 :=
    lastLimit_le fun g hg => by have := hgroups g hg; omega
  rw [h.nextSequence, toNat_stdMax, toNat_add_ofNat (by omega), hmax]
  show max 1 _ = _
  omega

theorem DB.Recovered.limit_lt {host : Host} {groups : List Group} {db : DB}
    (h : db.Recovered host groups) (hgroups : ∀ g ∈ groups, g.limit + 1 < 2 ^ 64) :
    ∀ g ∈ groups, g.limit < db.nextSequence.toNat := by
  intro g hg
  rw [h.toNat_nextSequence hgroups]
  exact Nat.lt_succ_of_le (limit_le_lastLimit hg)

/-! ### Runs -/

/-- The counter stays below `2^64` in a step: past every committed group, and, when the step opens
the database, where `recover` puts it, one past the end of the log. -/
def CounterFits (w w' : World) : Prop :=
  (∀ g ∈ w'.committed, g.limit < 2 ^ 64) ∧
    (w.db = none → ∀ g ∈ w.committed, g.limit + 1 < 2 ^ 64)

def countedSessions (host : Host) : System World where
  initial := (sessions host).initial
  step w w' := Step host w w' ∧ CounterFits w w'

theorem consistent_of_counted {host : Host} {w : World} (h : Reachable (countedSessions host) w) :
    Consistent host w := by
  have hw : Reachable (sessions host) w := h.mono (fun _ hs => hs) fun _ _ hst => hst.1
  exact consistent_of_reachable hw

/-- The ranges of the committed groups follow one another, and the counter is past them. -/
structure Ordered (w : World) : Prop where
  nonempty : ∀ g ∈ w.committed, g.entries ≠ []
  below : ∀ g ∈ w.committed, g.limit < 2 ^ 64
  increasing : w.committed.Pairwise fun a b => a.limit ≤ b.baseSequence.toNat
  next : ∀ db, w.db = some db → ∀ g ∈ w.committed, g.limit ≤ db.nextSequence.toNat

theorem Ordered.append {w w' : World} {db : DB} (h : Ordered w) (hdb : w.db = some db)
    {batches : List WriteBatch} (hbatches : Admitted batches)
    (hcommitted : w'.committed = w.committed ++ [db.nextGroup batches])
    (hbelow : ∀ g ∈ w'.committed, g.limit < 2 ^ 64)
    (hnext : ∀ db', w'.db = some db' →
      (db.nextGroup batches).limit ≤ db'.nextSequence.toNat) : Ordered w' := by
  have hold := h.next db hdb
  refine ⟨fun g hg => ?_, hbelow, ?_, fun db' hdb' g hg => ?_⟩
  · rw [hcommitted] at hg
    rcases List.mem_append.mp hg with hg | hg
    · exact h.nonempty g hg
    · rw [List.mem_singleton.mp hg]
      exact fun hnil => hbatches.1 (eq_nil_of_groupEntries hbatches.2 hnil)
  · rw [hcommitted, List.pairwise_append]
    refine ⟨h.increasing, List.pairwise_singleton _ _, fun a ha b hb => ?_⟩
    rw [List.mem_singleton.mp hb]
    exact hold a ha
  · rw [hcommitted] at hg
    have hlast := hnext db' hdb'
    rcases List.mem_append.mp hg with hg | hg
    · have := hold g hg
      unfold Group.limit at hlast
      exact Nat.le_trans this (Nat.le_trans (Nat.le_add_right _ _) hlast)
    · rw [List.mem_singleton.mp hg]
      exact hlast

theorem ordered_step {host : Host} {w w' : World} (hconsistent : Consistent host w)
    (h : Ordered w) (hstep : Step host w w') (hcounter : CounterFits w w') : Ordered w' := by
  cases hstep with
  | opens io hio hopen =>
    obtain ⟨-, hdb⟩ := hconsistent.state.openDb hconsistent.fits hio hopen
    refine ⟨h.nonempty, h.below, h.increasing, ?_⟩
    rintro _ ⟨rfl⟩ g hg
    exact Nat.le_of_lt (hdb.limit_lt (hcounter.2 rfl) g hg)
  | group io batches hbatches hok =>
    refine h.append rfl hbatches rfl hcounter.1 ?_
    rintro _ ⟨rfl⟩
    rw [DB.status_writeGroup] at hok
    obtain ⟨-, after, hwrite, hcommits⟩ := DB.writeGroup_ok _ hok
    rw [hwrite, hcommits.nextSequence, toNat_add_ofNat]
    · exact Nat.le_refl _
    · exact hcounter.1 (DB.nextGroup _ batches) (by simp)
  | close => exact ⟨h.nonempty, h.below, h.increasing, by simp⟩
  | @crash file synced committed db batches isSynced cut hbatches hgroup hsynced =>
    by_cases hcut : ((db.nextGroup batches).encode host).length ≤ cut
    · exact h.append rfl hbatches (by simp [hcut]) hcounter.1 (by simp)
    · refine ⟨?_, hcounter.1, ?_, by simp⟩ <;> simp only [hcut, if_false, List.append_nil]
      · exact h.nonempty
      · exact h.increasing

theorem ordered_of_reachable {host : Host} {w : World} (h : Reachable (countedSessions host) w) :
    Ordered w := by
  refine h.invariant (p := Ordered) ?_ fun s t hs hordered hst =>
    ordered_step (consistent_of_counted hs) hordered hst.1 hst.2
  rintro w rfl
  exact ⟨by simp, by simp, .nil, by simp⟩

structure NewestWins (host : Host) (file : Bytes) (db : DB) (log : DecodeResult) : Prop where
  decoded : decodeLog host file = .ok log
  complete : log.validBytes = file.length
  ranges : log.batches.Pairwise fun a b =>
    a.baseSequence.toNat < b.baseSequence.toNat ∧ a.limit ≤ b.baseSequence.toNat
  counter : ∀ key slot, db.memtable.slot host key = some slot →
    slot.sequence.toNat < db.nextSequence.toNat
  absent : ∀ key, db.memtable.slot host key = none ↔
    ∀ update ∈ log.batches.flatMap DecodedBatch.updates, update.1 ≠ key
  newest : ∀ key slot, db.memtable.slot host key = some slot →
    (key, slot) ∈ log.batches.flatMap DecodedBatch.updates ∧
      ∀ update ∈ log.batches.flatMap DecodedBatch.updates, update.1 = key →
        update.2.sequence.toNat ≤ slot.sequence.toNat

/-- In every state between groups, the sequence ranges of the records in the log are disjoint and
increase, the counter exceeds every number in the table, and the slot of each key is that of the
entry in the log with the greatest number for the key. -/
theorem newest_sequence_wins (host : Host) (w : World) (hw : Reachable (countedSessions host) w)
    (db : DB) (hopen : w.db = some db) : ∃ log, NewestWins host w.file db log := by
  obtain ⟨hfits, -, hstate⟩ := consistent_of_counted hw
  rw [hopen] at hstate
  obtain ⟨hnonempty, hbelow, hincreasing, hnext⟩ := ordered_of_reachable hw
  have hdecode := decodeLog_encodeLog_tornTail hfits (tornTail_nil host)
  rw [← hstate.file_eq] at hdecode
  have hupdates : (w.committed.map Group.decoded).flatMap DecodedBatch.updates =
      w.committed.flatMap Group.updates := by
    rw [List.flatMap_map]
    rfl
  have hnewest : ∀ key slot, db.memtable.slot host key = some slot →
      (key, slot) ∈ w.committed.flatMap Group.updates ∧
        ∀ update ∈ w.committed.flatMap Group.updates, update.1 = key →
          update.2.sequence.toNat ≤ slot.sequence.toNat := by
    intro key slot hslot
    rw [hstate.slot] at hslot
    exact KeyedUpdates.run_empty_newest (fun slot : MemEntry => slot.sequence.toNat)
      (pairwise_updates hbelow hincreasing) hslot
  refine ⟨_, hdecode, by rw [hstate.file_eq, List.append_nil], ?_, ?_, ?_, ?_⟩
  · rw [List.pairwise_map]
    refine hincreasing.imp_of_mem fun {a b} ha _ hab => ⟨Nat.lt_of_lt_of_le ?_ hab, hab⟩
    exact Nat.lt_add_of_pos_right (List.length_pos_iff.mpr (hnonempty a ha))
  · intro key slot hslot
    obtain ⟨hmem, -⟩ := hnewest key slot hslot
    obtain ⟨g, hg, hupdate⟩ := List.mem_flatMap.mp hmem
    have hsequence := sequence_of_mem_stamp (hbelow g hg) hupdate
    exact Nat.lt_of_lt_of_le hsequence.2 (hnext db hopen g hg)
  · intro key
    rw [hstate.slot, hupdates]
    exact KeyedUpdates.run_empty_eq_none_iff _ key
  · rw [hupdates]
    exact hnewest

theorem newest_sequence_wins_after_crash :
    ∃ (w : World) (db : DB) (log : DecodeResult), w.committed = [.put 1 [97] [49]] ∧
      w.db = some db ∧ NewestWins .sample w.file db log := by
  have hopen : Reachable (countedSessions .sample) { db := some {} } :=
    .step (.initial rfl) ⟨.opens { readv := .done 0 } ⟨rfl, rfl, rfl, rfl⟩ rfl, by simp, by simp⟩
  have hgroup := hopen.step ⟨.group (.success 32) [.put .new [97] [49]] (by decide)
    (by decide +kernel), by decide +kernel, by simp⟩
  obtain ⟨w, hcrash, hclosed, hsize, hcommitted⟩ : ∃ w, Reachable (countedSessions .sample) w ∧
      w.db = none ∧ w.file.length < 2 ^ 31 ∧ w.committed = [.put 1 [97] [49]] :=
    ⟨_, hgroup.step ⟨.crash [.put .new [98] [50]] false 5 (by decide) (by decide +kernel) (by simp),
      by decide +kernel, by simp⟩, rfl, by decide +kernel, by decide +kernel⟩
  have hcounter : ∀ g ∈ w.committed, g.limit + 1 < 2 ^ 64 := by rw [hcommitted]; decide
  obtain ⟨db, hreopen⟩ := exists_opens (hcrash.mono (fun _ h => h) fun _ _ h => h.1) hclosed hsize
  have hreopened := hcrash.step
    ⟨hreopen, fun g hg => Nat.lt_of_succ_lt (hcounter g hg), fun _ => hcounter⟩
  obtain ⟨log, hlog⟩ := newest_sequence_wins .sample _ hreopened db rfl
  exact ⟨{ w with file := encodeLog .sample w.committed, db := some db }, db, log, hcommitted, rfl,
    hlog⟩

end StorageEngine
