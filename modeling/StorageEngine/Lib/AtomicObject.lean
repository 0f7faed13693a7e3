import Mathlib.Algebra.Order.Group.Multiset
import StorageEngine.Lib.Transition

/-! Linearizability.  An atomic object carries out every operation at one moment between its
invocation and its response, or lets it fail without any effect.  A history is linearizable when an
atomic object has it. -/

namespace AtomicObject

open Transition

variable {ι ω σ ρ : Type}

/-- A sequential object: what an operation makes of the state, and what it answers. -/
structure Object (ω σ ρ : Type) where
  apply : ω → σ → σ × ρ

inductive Event (ι ω ρ : Type) where
  | invoke (client : ι) (op : ω)
  | respond (client : ι) (answer : Option ρ)
  deriving DecidableEq

/-- Operations wait until they take effect, and their answers until they are given. -/
structure Run (ι ω σ ρ : Type) where
  state : σ
  waiting : Multiset (ι × ω) := 0
  answered : Multiset (ι × ρ) := 0
  history : List (Event ι ω ρ) := []

inductive Step (object : Object ω σ ρ) : Run ι ω σ ρ → Run ι ω σ ρ → Prop
  | invoke (r : Run ι ω σ ρ) (client : ι) (op : ω) :
    Step object r { r with
      waiting := (client, op) ::ₘ r.waiting
      history := r.history ++ [.invoke client op] }
  | effect (r : Run ι ω σ ρ) (client : ι) (op : ω) (rest : Multiset (ι × ω))
    (h : r.waiting = (client, op) ::ₘ rest) :
    Step object r { r with
      state := (object.apply op r.state).1
      waiting := rest
      answered := (client, (object.apply op r.state).2) ::ₘ r.answered }
  | respond (r : Run ι ω σ ρ) (client : ι) (answer : ρ) (rest : Multiset (ι × ρ))
    (h : r.answered = (client, answer) ::ₘ rest) :
    Step object r { r with
      answered := rest
      history := r.history ++ [.respond client (some answer)] }
  | fail (r : Run ι ω σ ρ) (client : ι) (op : ω) (rest : Multiset (ι × ω))
    (h : r.waiting = (client, op) ::ₘ rest) :
    Step object r { r with
      waiting := rest
      history := r.history ++ [.respond client none] }

def atomic (ι : Type) (object : Object ω σ ρ) (start : σ) : System (Run ι ω σ ρ) where
  initial r := r = { state := start }
  step := Step object

def Linearizable (object : Object ω σ ρ) (start : σ) (history : List (Event ι ω ρ)) : Prop :=
  ∃ r, Reachable (atomic ι object start) r ∧ r.history = history

theorem Step.history_grows {object : Object ω σ ρ} {r r' : Run ι ω σ ρ} (h : Step object r r') :
    r.history <+: r'.history := by
  cases h with
  | effect => exact List.prefix_rfl
  | _ => exact List.prefix_append ..

/-- What steps keep as long as the history is a front of the given one. -/
theorem Linearizable.exists_run {object : Object ω σ ρ} {start : σ} {history : List (Event ι ω ρ)}
    (h : Linearizable object start history) {p : Run ι ω σ ρ → Prop}
    (hinitial : p { state := start })
    (hstep : ∀ r r', p r → Step object r r' → r'.history <+: history → p r') :
    ∃ r, p r ∧ r.history = history := by
  obtain ⟨r, hr, hhistory⟩ := h
  have hfront := hr.invariant (p := fun r => r.history <+: history → p r)
    (by rintro _ rfl -; exact hinitial)
    fun r r' _ ih hst hfront => hstep r r' (ih (hst.history_grows.trans hfront)) hst hfront
  exact ⟨r, hfront (hhistory ▸ List.prefix_rfl), hhistory⟩

variable (object : Object ω σ ρ)

/-- The state and the answers after operations that take effect one after the other. -/
def effects (state : σ) : List (ι × ω) → σ × Multiset (ι × ρ)
  | [] => (state, 0)
  | (client, op) :: ops =>
    let (after, answer) := object.apply op state
    let (last, answers) := effects after ops
    (last, (client, answer) ::ₘ answers)

theorem run_effects (r : Run ι ω σ ρ) (ops : List (ι × ω)) (rest : Multiset (ι × ω))
    (h : r.waiting = ops + rest) :
    Relation.ReflTransGen (Step object) r { r with
      state := (effects object r.state ops).1
      waiting := rest
      answered := r.answered + (effects object r.state ops).2 } := by
  induction ops generalizing r with
  | nil =>
    rw [Multiset.coe_nil, zero_add] at h
    subst h
    simp only [effects, add_zero]
    exact .refl
  | cons op ops ih =>
    obtain ⟨client, op⟩ := op
    rw [← Multiset.cons_coe, Multiset.cons_add] at h
    have hrest := ih { r with
      state := (object.apply op r.state).1
      waiting := ops + rest
      answered := (client, (object.apply op r.state).2) ::ₘ r.answered } rfl
    simp only [effects, Multiset.add_cons]
    rw [Multiset.cons_add] at hrest
    exact .head (.effect r client op _ h) hrest

/-- An operation that is invoked, takes effect and returns at once. -/
theorem run_at_once (r : Run ι ω σ ρ) (client : ι) (op : ω) :
    Relation.ReflTransGen (Step object) r { r with
      state := (object.apply op r.state).1
      history := r.history ++
        [.invoke client op, .respond client (some (object.apply op r.state).2)] } := by
  refine .head (.invoke r client op) (.head (.effect _ client op _ rfl) (.single ?_))
  have hrespond := @Step.respond _ _ _ _ object { r with
    state := (object.apply op r.state).1
    answered := (client, (object.apply op r.state).2) ::ₘ r.answered
    history := r.history ++ [.invoke client op] } client _ _ rfl
  rw [List.append_assoc] at hrespond
  exact hrespond

end AtomicObject
