import Mathlib.Data.List.Forall2
import Mathlib.Tactic.Common

/-! Reading a log of frames from its front.  A parser looks at the rest of the input and stops,
fails, or takes a frame of at least one element; `scan` runs it until it stops, fails, or reaches
the end, and returns the values of the frames with the number of elements they take. -/

namespace FrameScan

variable {β ε α : Type}

/-- What the parser finds at the front of its input: nothing more to read, an error, or a value
in `n` elements. -/
inductive Frame (ε α : Type) where
  | stop
  | fail (error : ε)
  | next (value : α) (n : Nat)

/-- A parser of frames.  A frame is not empty and does not reach past the input. -/
structure Parser (β ε α : Type) where
  parse : List β → Frame ε α
  progress : ∀ {xs a n}, parse xs = .next a n → 0 < n ∧ n ≤ xs.length

/-- The values and the length of the frames at the front of the input. -/
def scan (p : Parser β ε α) (xs : List β) : Except ε (List α × Nat) :=
  if xs = [] then
    .ok ([], 0)
  else
    match h : p.parse xs with
    | .stop => .ok ([], 0)
    | .fail e => .error e
    | .next a n =>
      have := p.progress h
      (scan p (xs.drop n)).map fun r => (a :: r.1, n + r.2)
termination_by xs.length
decreasing_by simp; omega

variable (p : Parser β ε α)

@[simp] theorem scan_nil : scan p [] = .ok ([], 0) := by rw [scan]; simp

theorem scan_stop {xs : List β} (h : p.parse xs = .stop) : scan p xs = .ok ([], 0) := by
  rw [scan]
  split
  · rfl
  · split <;> simp_all

theorem scan_fail {xs : List β} {e : ε} (hne : xs ≠ []) (h : p.parse xs = .fail e) :
    scan p xs = .error e := by
  rw [scan, if_neg hne]
  split <;> simp_all

theorem scan_next {xs : List β} {a : α} {n : Nat} (h : p.parse xs = .next a n) :
    scan p xs = (scan p (xs.drop n)).map fun r => (a :: r.1, n + r.2) := by
  have hprogress := p.progress h
  have hne : xs ≠ [] := by
    rintro rfl
    simp at hprogress
    omega
  rw [scan, if_neg hne]
  split <;> simp_all

/-- The induction of `scan`: it ends, the parser fails, or there is a frame before the rest. -/
theorem scan_induction {motive : List β → Except ε (List α × Nat) → Prop}
    (hend : ∀ xs, xs = [] ∨ p.parse xs = .stop → motive xs (.ok ([], 0)))
    (hfail : ∀ xs e, p.parse xs = .fail e → motive xs (.error e))
    (hnext : ∀ xs a n, p.parse xs = .next a n → motive (xs.drop n) (scan p (xs.drop n)) →
      motive xs ((scan p (xs.drop n)).map fun r => (a :: r.1, n + r.2)))
    (xs : List β) : motive xs (scan p xs) := by
  induction hlen : xs.length using Nat.strongRecOn generalizing xs with
  | ind len ih =>
  by_cases hne : xs = []
  · subst hne
    rw [scan_nil]
    exact hend [] (.inl rfl)
  cases hparse : p.parse xs with
  | stop =>
    rw [scan_stop p hparse]
    exact hend xs (.inr hparse)
  | fail e =>
    rw [scan_fail p hne hparse]
    exact hfail xs e hparse
  | next a n =>
    have hprogress := p.progress hparse
    rw [scan_next p hparse]
    exact hnext xs a n hparse (ih _ (by simp only [List.length_drop]; omega) _ rfl)

/-- The induction of a `scan` that succeeds. -/
theorem scan_ok_induction {motive : List β → List α → Nat → Prop}
    (hend : ∀ xs, xs = [] ∨ p.parse xs = .stop → motive xs [] 0)
    (hnext : ∀ xs a m values n, p.parse xs = .next a m → motive (xs.drop m) values n →
      motive xs (a :: values) (m + n))
    {xs : List β} {values : List α} {n : Nat} (h : scan p xs = .ok (values, n)) :
    motive xs values n := by
  refine scan_induction p
    (motive := fun xs result => ∀ values n, result = .ok (values, n) → motive xs values n)
    ?_ ?_ ?_ xs values n h
  · intro xs hxs values n h
    obtain ⟨rfl, rfl⟩ := Prod.mk.inj (Except.ok.inj h)
    exact hend xs hxs
  · intro xs e _ values n h
    contradiction
  · intro xs a m hparse ih values n h
    cases hrest : scan p (xs.drop m) with
    | error e => rw [hrest] at h; contradiction
    | ok r =>
      rw [hrest] at h
      obtain ⟨rfl, rfl⟩ := Prod.mk.inj (Except.ok.inj h)
      exact hnext xs a m r.1 r.2 hparse (ih r.1 r.2 hrest)

theorem scan_le {xs : List β} {values : List α} {n : Nat} (h : scan p xs = .ok (values, n)) :
    n ≤ xs.length := by
  apply scan_ok_induction p (motive := fun xs _ n => n ≤ xs.length) _ _ h
  · intro xs _
    exact Nat.zero_le _
  · intro xs a m values n hparse ih
    have hprogress := p.progress hparse
    rw [List.length_drop] at ih
    omega

/-- A scan that takes nothing has ended at once. -/
theorem end_of_scan {xs : List β} {values : List α} (h : scan p xs = .ok (values, 0)) :
    xs = [] ∨ p.parse xs = .stop := by
  apply scan_ok_induction p (motive := fun xs _ n => n = 0 → xs = [] ∨ p.parse xs = .stop) _ _ h rfl
  · intro xs hxs _
    exact hxs
  · intro xs a m values n hparse _ hzero
    have hprogress := p.progress hparse
    omega

/-- Scanning reports only errors of the parser. -/
theorem scan_error {q : ε → Prop} (hq : ∀ xs e, p.parse xs = .fail e → q e) {xs : List β} {e : ε}
    (h : scan p xs = .error e) : q e := by
  refine scan_induction p (motive := fun _ result => ∀ e, result = .error e → q e) ?_ ?_ ?_ xs e h
  · intro xs _ e h
    contradiction
  · intro xs e' hparse e h
    exact hq xs e (Except.error.inj h ▸ hparse)
  · intro xs a m _ ih e h
    cases hrest : scan p (xs.drop m) with
    | ok r => rw [hrest] at h; contradiction
    | error e' =>
      rw [hrest] at h
      exact ih e (Except.error.inj h ▸ hrest)

def IsFrame (f : List β) (a : α) : Prop := ∀ rest, p.parse (f ++ rest) = .next a f.length

theorem scan_frame {f : List β} {a : α} (h : IsFrame p f a) (rest : List β) :
    scan p (f ++ rest) = (scan p rest).map fun r => (a :: r.1, f.length + r.2) := by
  rw [scan_next p (h rest), List.drop_left' rfl]

theorem scan_flatten {frames : List (List β)} {values : List α}
    (h : List.Forall₂ (IsFrame p) frames values) (rest : List β) :
    scan p (frames.flatten ++ rest) =
      (scan p rest).map fun r => (values ++ r.1, frames.flatten.length + r.2) := by
  induction h with
  | nil =>
    rw [List.flatten_nil, List.nil_append]
    cases scan p rest <;> simp [Except.map]
  | cons hframe _ ih =>
    rw [List.flatten_cons, List.append_assoc, scan_frame p hframe, ih]
    cases scan p rest with
    | error e => rfl
    | ok r => simp [Except.map, Nat.add_assoc]

theorem scan_frames {ι : Type} (f : ι → List β) (a : ι → α) (is : List ι)
    (h : ∀ i ∈ is, IsFrame p (f i) (a i)) (rest : List β) :
    scan p (is.flatMap f ++ rest) =
      (scan p rest).map fun r => (is.map a ++ r.1, (is.flatMap f).length + r.2) := by
  rw [List.flatMap_def]
  refine scan_flatten p ?_ rest
  rw [List.forall₂_map_left_iff, List.forall₂_map_right_iff, List.forall₂_same]
  exact h

/-- What was scanned is a list of frames, one for each value. -/
theorem scan_ok_frames {ι : Type} (f : ι → List β) {R : ι → α → Prop}
    (hR : ∀ xs a n, p.parse xs = .next a n → ∃ i, xs.take n = f i ∧ R i a) {xs : List β}
    {values : List α} {n : Nat} (h : scan p xs = .ok (values, n)) :
    ∃ is, xs.take n = is.flatMap f ∧ List.Forall₂ R is values := by
  apply scan_ok_induction p
    (motive := fun xs values n => ∃ is, xs.take n = is.flatMap f ∧ List.Forall₂ R is values) _ _ h
  · intro xs _
    exact ⟨[], List.take_zero, .nil⟩
  · intro xs a m values n hparse ih
    obtain ⟨i, htake, hi⟩ := hR xs a m hparse
    obtain ⟨is, hrest, his⟩ := ih
    refine ⟨i :: is, ?_, .cons hi his⟩
    rw [List.take_add, htake, hrest, List.flatMap_cons]

/-- A frame is recognised by its own elements, whatever follows it. -/
def Local : Prop := ∀ xs a n, p.parse xs = .next a n → IsFrame p (xs.take n) a

/-- With a local parser, the scanned part of an input is scanned again in the same way, and what
follows it is scanned as if it stood alone. -/
theorem scan_take_append (hlocal : Local p) {xs : List β} {values : List α} {n : Nat}
    (h : scan p xs = .ok (values, n)) (rest : List β) :
    scan p (xs.take n ++ rest) = (scan p rest).map fun r => (values ++ r.1, n + r.2) := by
  obtain ⟨frames, hflatten, hframes⟩ := scan_ok_frames p id
    (fun xs a n hparse => ⟨xs.take n, rfl, hlocal xs a n hparse⟩) h
  rw [List.flatMap_id] at hflatten
  have hlen : frames.flatten.length = n := by
    rw [← hflatten, List.length_take, Nat.min_eq_left (scan_le p h)]
  rw [hflatten, scan_flatten p hframes, hlen]

/-- When the end of the input is cut off, the parser stops at a frame that the cut goes through, and
it still stops where it stopped. -/
def Cuttable : Prop := ∀ xs k, (p.parse xs = .stop → p.parse (xs.take k) = .stop) ∧
  ∀ a n, p.parse xs = .next a n → k < n → p.parse (xs.take k) = .stop

theorem exists_scan_take (hlocal : Local p) (hcuttable : Cuttable p) {xs : List β}
    {values : List α} {n : Nat} (h : scan p xs = .ok (values, n)) (k : Nat) :
    ∃ r, scan p (xs.take k) = .ok r := by
  apply scan_ok_induction p (motive := fun xs _ _ => ∀ k, ∃ r, scan p (xs.take k) = .ok r) _ _ h
  · rintro xs (rfl | hstop) k
    · exact ⟨_, by rw [List.take_nil, scan_nil]⟩
    · exact ⟨_, scan_stop p ((hcuttable xs k).1 hstop)⟩
  · intro xs a m values n hparse ih k
    by_cases hcut : k < m
    · exact ⟨_, scan_stop p ((hcuttable xs k).2 a m hparse hcut)⟩
    · obtain ⟨r, hr⟩ := ih (k - m)
      have hsplit : xs.take k = xs.take m ++ (xs.drop m).take (k - m) := by
        rw [← List.take_add, Nat.add_sub_cancel' (Nat.le_of_not_lt hcut)]
      exact ⟨_, by rw [hsplit, scan_frame p (hlocal xs a m hparse), hr]; rfl⟩

/-- Of two fronts of an input, one has all the frames that the other has and that end in it. -/
theorem scan_take_prefix (hlocal : Local p) {xs : List β} {k l m n : Nat} {values front : List α}
    (hfront : scan p (xs.take l) = .ok (front, m)) (hm : m ≤ k)
    (h : scan p (xs.take k) = .ok (values, n)) : front <+: values := by
  have hle := scan_le p hfront
  rw [List.length_take] at hle
  have hsplit : xs.take k = (xs.take l).take m ++ (xs.take k).drop m := by
    rw [List.take_take, Nat.min_eq_left (by omega), ← Nat.min_eq_left hm, ← List.take_take,
      Nat.min_eq_left hm, List.take_append_drop]
  rw [hsplit, scan_take_append p hlocal hfront] at h
  cases hrest : scan p ((xs.take k).drop m) with
  | error e => rw [hrest] at h; contradiction
  | ok r =>
    rw [hrest] at h
    obtain ⟨rfl, -⟩ := Prod.mk.inj (Except.ok.inj h)
    exact List.prefix_append _ _

end FrameScan
