import StorageEngine.Lib.Transition

/-! Runs that come to rest.  A rank that every working step lowers bounds the number of such steps
in a run.  Idle steps may raise the rank, each by at most a fixed amount. -/

namespace Transition

variable {σ : Type} {works idles : σ → σ → Prop}

/-- A run with a number of working steps and a number of idle ones, in any order. -/
inductive Run (works idles : σ → σ → Prop) : Nat → Nat → σ → σ → Prop
  | refl (s : σ) : Run works idles 0 0 s s
  | work {steps idle : Nat} {s t u : σ} :
      Run works idles steps idle s t → works t u → Run works idles (steps + 1) idle s u
  | idle {steps idle : Nat} {s t u : σ} :
      Run works idles steps idle s t → idles t u → Run works idles steps (idle + 1) s u

/-- Both kinds of steps keep an invariant, which may be used to bound their ranks. -/
theorem Run.steps_le {p : σ → Prop} {rank : σ → Nat} {cost : Nat}
    (hkeeps : ∀ s t, p s → works s t ∨ idles s t → p t)
    (hworks : ∀ s t, p s → works s t → rank t < rank s)
    (hidles : ∀ s t, p s → idles s t → rank t ≤ rank s + cost) {steps idle : Nat} {s t : σ}
    (h : Run works idles steps idle s t) (hs : p s) :
    p t ∧ steps + rank t ≤ rank s + cost * idle := by
  induction h with
  | refl => simpa using hs
  | work _ hwork ih =>
    obtain ⟨hinv, hle⟩ := ih hs
    have := hworks _ _ hinv hwork
    exact ⟨hkeeps _ _ hinv (.inl hwork), by omega⟩
  | idle _ hidle ih =>
    obtain ⟨hinv, hle⟩ := ih hs
    have := hidles _ _ hinv hidle
    refine ⟨hkeeps _ _ hinv (.inr hidle), ?_⟩
    rw [Nat.mul_succ]
    omega

end Transition
