import Mathlib.Data.List.Induction
import Mathlib.Logic.Function.Basic
import Mathlib.Order.Lattice
import Mathlib.Tactic.Common

/-! Lists of updates to a map, each of which sets one key.  The value of a key after a run is that
of its last update, so updates of other keys may be dropped or moved; and when the updates carry
increasing stamps, the value of a key is that of its update with the greatest stamp. -/

namespace KeyedUpdates

variable {κ ν : Type} [DecidableEq κ]

/-- The map after the updates `us`, in order. -/
def run (m : κ → Option ν) (us : List (κ × ν)) : κ → Option ν :=
  us.foldl (fun m u => Function.update m u.1 (some u.2)) m

@[simp] theorem run_nil (m : κ → Option ν) : run m [] = m := rfl

@[simp] theorem run_cons (m : κ → Option ν) (u : κ × ν) (us : List (κ × ν)) :
    run m (u :: us) = run (Function.update m u.1 (some u.2)) us := rfl

theorem run_append (m : κ → Option ν) (us vs : List (κ × ν)) :
    run m (us ++ vs) = run (run m us) vs := List.foldl_append

/-- The value of a key depends only on what the map held there and on the updates of the key. -/
theorem run_filter (p : κ → Bool) (us : List (κ × ν)) {m m' : κ → Option ν} {k : κ}
    (hk : p k = true) (hm : m k = m' k) :
    run m (us.filter fun u => p u.1) k = run m' us k := by
  induction us generalizing m m' with
  | nil => exact hm
  | cons u us ih =>
    by_cases hu : p u.1 = true
    · rw [List.filter_cons_of_pos (by exact hu), run_cons, run_cons]
      apply ih
      by_cases h : k = u.1
      · simp [h]
      · simp [h, hm]
    · rw [List.filter_cons_of_neg (by exact hu), run_cons]
      have h : k ≠ u.1 := by rintro rfl; exact hu hk
      exact ih (by simp [h, hm])

theorem run_congr (us : List (κ × ν)) {m m' : κ → Option ν} {k : κ} (h : m k = m' k) :
    run m us k = run m' us k := by
  have hrun := run_filter (fun _ => true) us rfl h
  rwa [List.filter_eq_self.mpr fun _ _ => rfl] at hrun

theorem run_of_notMem (us : List (κ × ν)) (m : κ → Option ν) {k : κ}
    (hk : ∀ u ∈ us, u.1 ≠ k) : run m us k = m k := by
  induction us generalizing m with
  | nil => rfl
  | cons u us ih =>
    rw [run_cons, ih _ fun v hv => hk v (by simp [hv])]
    simp [(hk u (by simp)).symm]

/-- Updates change nothing exactly when the last update of each key sets what is already there. -/
theorem run_eq_self_iff (us : List (κ × ν)) (m : κ → Option ν) :
    run m us = m ↔ ∀ before u after, us = before ++ u :: after → (∀ v ∈ after, v.1 ≠ u.1) →
      m u.1 = some u.2 := by
  constructor
  · rintro h before u after rfl hafter
    rw [← h, run_append, run_cons, run_of_notMem _ _ hafter, Function.update_self]
  · intro h
    funext k
    cases hfind : us.reverse.find? (fun u => decide (u.1 = k)) with
    | none =>
      rw [List.find?_eq_none] at hfind
      exact run_of_notMem us m fun u hu => by simpa using hfind u (List.mem_reverse.mpr hu)
    | some u =>
      obtain ⟨hk, after, before, hsplit, hafter⟩ := List.find?_eq_some_iff_append.mp hfind
      obtain rfl : u.1 = k := by simpa using hk
      have hlast : ∀ v ∈ after.reverse, v.1 ≠ u.1 := fun v hv => by
        simpa using hafter v (List.mem_reverse.mp hv)
      have hus : us = before.reverse ++ u :: after.reverse := by
        rw [← List.reverse_reverse us, hsplit]
        simp
      rw [h _ _ _ hus hlast, hus, run_append, run_cons, run_of_notMem _ _ hlast,
        Function.update_self]

theorem run_empty_eq_none_iff (us : List (κ × ν)) (k : κ) :
    run (fun _ => none) us k = none ↔ ∀ u ∈ us, u.1 ≠ k := by
  constructor
  · induction us using List.reverseRecOn with
    | nil => simp
    | append_singleton us u ih =>
      intro h v hv
      rw [run_append, run_cons, run_nil] at h
      by_cases hk : u.1 = k
      · simp [hk] at h
      · rw [Function.update_of_ne (Ne.symm hk)] at h
        rcases List.mem_append.mp hv with hv | hv
        · exact ih h v hv
        · rw [List.mem_singleton.mp hv]
          exact hk
  · exact run_of_notMem us _

/-- With stamps that increase along the updates, the value of a key is that of its update with
the greatest stamp. -/
theorem run_empty_newest {σ : Type} [LinearOrder σ] (stamp : ν → σ) {us : List (κ × ν)}
    (hus : us.Pairwise fun u v => stamp u.2 < stamp v.2) {k : κ} {value : ν}
    (h : run (fun _ => none) us k = some value) :
    (k, value) ∈ us ∧ ∀ u ∈ us, u.1 = k → stamp u.2 ≤ stamp value := by
  induction us using List.reverseRecOn with
  | nil => simp at h
  | append_singleton us u ih =>
    obtain ⟨hinit, -, hlast⟩ := List.pairwise_append.mp hus
    rw [run_append, run_cons, run_nil] at h
    by_cases hk : u.1 = k
    · -- The last update sets the key, and its stamp exceeds every other.
      subst hk
      obtain rfl : u.2 = value := by simpa using h
      refine ⟨by simp, fun v hv _ => ?_⟩
      rcases List.mem_append.mp hv with hv | hv
      · exact le_of_lt (hlast v hv u (by simp))
      · rw [List.mem_singleton.mp hv]
    · rw [Function.update_of_ne (Ne.symm hk)] at h
      obtain ⟨hmem, hmax⟩ := ih hinit h
      refine ⟨by simp [hmem], fun v hv hvk => ?_⟩
      rcases List.mem_append.mp hv with hv | hv
      · exact hmax v hv hvk
      · rw [List.mem_singleton.mp hv] at hvk
        exact absurd hvk hk

end KeyedUpdates
