import Mathlib.Tactic.TypeStar

/-!
# Machines

A machine answers every input and goes on from the state it is then in.

* `Machine.outputs`, `Machine.final`: the answers to a list of inputs, and the
  state after them;
* `Machine.Along P`: every input meets `P` in the state it comes in;
* `Machine.Simulates.run`: related by a simulation, two machines give the same
  answers to such inputs, and are still related after them.
-/

namespace BurstPoolNode

/-- A machine with the states `σ`, the inputs `α` and the outputs `β`. -/
structure Machine (σ α β : Type*) where
  step : σ → α → β × σ

namespace Machine

variable {σ τ α β : Type*}

/-- The outputs for the inputs `as`, taken in turn. -/
def outputs (M : Machine σ α β) (s : σ) : List α → List β
  | [] => []
  | a :: as => (M.step s a).1 :: outputs M (M.step s a).2 as

/-- The state after the inputs `as`. -/
def final (M : Machine σ α β) (s : σ) : List α → σ
  | [] => s
  | a :: as => final M (M.step s a).2 as

/-- Every input meets `P` in the state it comes in. -/
def Along (M : Machine σ α β) (P : σ → α → Prop) (s : σ) : List α → Prop
  | [] => True
  | a :: as => P s a ∧ Along M P (M.step s a).2 as

/-- The relation `R` is kept by inputs that meet `P` in the state of the second machine, to
    which both machines give the same output. -/
def Simulates (M : Machine σ α β) (N : Machine τ α β) (R : σ → τ → Prop) (P : τ → α → Prop) :
    Prop :=
  ∀ s t a, R s t → P t a → (M.step s a).1 = (N.step t a).1 ∧ R (M.step s a).2 (N.step t a).2

/-- A simulation gives the same outputs for whole lists of inputs. -/
theorem Simulates.run {M : Machine σ α β} {N : Machine τ α β} {R : σ → τ → Prop}
    {P : τ → α → Prop} (h : M.Simulates N R P) {s : σ} {t : τ} {as : List α} (hst : R s t)
    (has : N.Along P t as) :
    M.outputs s as = N.outputs t as ∧ R (M.final s as) (N.final t as) := by
  induction as generalizing s t with
  | nil => exact ⟨rfl, hst⟩
  | cons a as ih =>
    obtain ⟨hout, hnext⟩ := h s t a hst has.1
    obtain ⟨houts, hfinal⟩ := ih hnext has.2
    rw [outputs, outputs, hout, houts]
    exact ⟨rfl, hfinal⟩

end Machine

end BurstPoolNode
