import Mathlib.Logic.Relation
import Mathlib.Tactic.Common

/-! Transition systems.  A state is reachable when some run leads to it, and a property that holds
at the start and survives every step holds in all reachable states. -/

namespace Transition

structure System (σ : Type) where
  initial : σ → Prop
  step : σ → σ → Prop

variable {σ : Type} {S T : System σ}

inductive Reachable (S : System σ) : σ → Prop
  | initial {s : σ} : S.initial s → Reachable S s
  | step {s t : σ} : Reachable S s → S.step s t → Reachable S t

/-- The invariant rule.  The state before a step may be assumed reachable, so that a proof can use
invariants that are already known. -/
theorem Reachable.invariant {s : σ} (h : Reachable S s) {p : σ → Prop}
    (hinitial : ∀ s, S.initial s → p s)
    (hstep : ∀ s t, Reachable S s → p s → S.step s t → p t) : p s := by
  induction h with
  | initial hs => exact hinitial _ hs
  | step hs hst ih => exact hstep _ _ hs ih hst

theorem Reachable.trans {s t : σ} (h : Reachable S s) (hst : Relation.ReflTransGen S.step s t) :
    Reachable S t := by
  induction hst with
  | refl => exact h
  | tail _ hst ih => exact .step ih hst

theorem Reachable.mono {s : σ} (h : Reachable S s) (hinitial : ∀ s, S.initial s → T.initial s)
    (hstep : ∀ s t, S.step s t → T.step s t) : Reachable T s := by
  induction h with
  | initial hs => exact .initial (hinitial _ hs)
  | step _ hst ih => exact .step ih (hstep _ _ hst)

/-- The simulation rule: `T` answers each step of `S` with a run of its own. -/
theorem Reachable.simulated {τ : Type} {T : System τ} {R : σ → τ → Prop} {s : σ}
    (h : Reachable S s) (hinitial : ∀ s, S.initial s → ∃ t, T.initial t ∧ R s t)
    (hstep : ∀ s s' t, R s t → S.step s s' → ∃ t', Relation.ReflTransGen T.step t t' ∧ R s' t') :
    ∃ t, Reachable T t ∧ R s t := by
  induction h with
  | initial hs =>
    obtain ⟨t, ht, hR⟩ := hinitial _ hs
    exact ⟨t, .initial ht, hR⟩
  | step _ hst ih =>
    obtain ⟨t, ht, hR⟩ := ih
    obtain ⟨t', hrun, hR'⟩ := hstep _ _ t hR hst
    exact ⟨t', ht.trans hrun, hR'⟩

end Transition
