import Mathlib.Data.Set.Basic

/-!
# Transition systems

A transition system has states and actions; all nondeterminism (which thread
moves, what an input is) sits in the action, so that a step is a partial
function and runs can be evaluated.

* `System.exec`: the state after a list of actions (`System.execIf`, if every
  step meets a condition that can be decided);
* `System.Along P`, `System.Always I`: a condition on the steps, or on the
  states, of a run;
* `System.Reachable P`: the states reached by runs all of whose steps meet
  `P`, a condition on the state before the step and on the action; for
  `fun _ _ => True`, all the reachable states;
* `Reachable.invariant`: what holds initially and is kept by every step that
  meets `P` holds in every state reached.
-/

namespace BurstPoolNode

/-- A transition system on the states `σ` with the actions `α`. -/
structure System (σ α : Type*) where
  /-- The initial states. -/
  init : Set σ
  /-- The state after an action, if the action is enabled. -/
  step : σ → α → Option σ

namespace System

variable {σ α : Type*} (T : System σ α)

/-- The state after the actions `as`, taken in turn. -/
def exec (s : σ) : List α → Option σ
  | [] => some s
  | a :: as => (T.step s a).bind fun t => exec t as

@[simp] theorem exec_nil (s : σ) : T.exec s [] = some s := rfl

theorem exec_cons (s : σ) (a : α) (as : List α) :
    T.exec s (a :: as) = (T.step s a).bind fun t => T.exec t as := rfl

theorem exec_append (s : σ) (as bs : List α) :
    T.exec s (as ++ bs) = (T.exec s as).bind fun t => T.exec t bs := by
  induction as generalizing s with
  | nil => rfl
  | cons a as ih =>
    rw [List.cons_append, exec_cons, exec_cons, Option.bind_assoc]
    exact congrArg _ (funext ih)

theorem exec_concat (s : σ) (as : List α) (a : α) :
    T.exec s (as ++ [a]) = (T.exec s as).bind fun t => T.step t a := by
  rw [exec_append]
  refine congrArg _ (funext fun t => ?_)
  rw [exec_cons]
  simp

/-- The states reached by runs whose steps all meet `P`. -/
inductive Reachable (P : σ → α → Prop) : σ → Prop
  | init {s : σ} : s ∈ T.init → Reachable P s
  | step {s t : σ} {a : α} : Reachable P s → P s a → T.step s a = some t → Reachable P t

/-- A condition on steps that every step meets. -/
abbrev Any : σ → α → Prop := fun _ _ => True

/-- Every step of the run `as` from `s` meets `P`. -/
def Along (P : σ → α → Prop) : σ → List α → Prop
  | _, [] => True
  | s, a :: as => P s a ∧ ∀ t, T.step s a = some t → Along P t as

/-- Every state of the run `as` from `s` meets `I`. -/
def Always (I : σ → Prop) : σ → List α → Prop
  | s, [] => I s
  | s, a :: as => I s ∧ ∀ t, T.step s a = some t → Always I t as

/-- With a condition that can be decided, so can it be along a run. -/
instance decidableAlong (P : σ → α → Prop) [∀ s a, Decidable (P s a)] :
    (s : σ) → (as : List α) → Decidable (T.Along P s as)
  | _, [] => .isTrue trivial
  | s, a :: as =>
    have : Decidable (∀ t, T.step s a = some t → T.Along P t as) :=
      match T.step s a with
      | none => .isTrue nofun
      | some t => @decidable_of_iff _ (T.Along P t as) (by simp) (decidableAlong P t as)
    inferInstanceAs (Decidable (_ ∧ _))

variable {T} {P : σ → α → Prop}

theorem Reachable.any {s : σ} (h : T.Reachable P s) : T.Reachable Any s := by
  induction h with
  | init hs => exact .init hs
  | step _ _ hst ih => exact .step ih trivial hst

/-- What holds initially and is kept by every step meeting `P` holds in every
    state reached by such steps. -/
theorem Reachable.invariant {I : σ → Prop} (hinit : ∀ s ∈ T.init, I s)
    (hstep : ∀ s a t, I s → P s a → T.step s a = some t → I t) {s : σ}
    (h : T.Reachable P s) : I s := by
  induction h with
  | init hs => exact hinit _ hs
  | step _ hP hst ih => exact hstep _ _ _ ih hP hst

/-- A run of actions that meet `P` anywhere stays among the states reached by such steps. -/
theorem Reachable.exec_of {s t : σ} {as : List α} (h : T.Reachable P s)
    (has : ∀ a ∈ as, ∀ u, P u a) (hst : T.exec s as = some t) : T.Reachable P t := by
  induction as generalizing s with
  | nil => exact Option.some.inj hst ▸ h
  | cons a as ih =>
    rw [List.forall_mem_cons] at has
    rw [exec_cons, Option.bind_eq_some_iff] at hst
    obtain ⟨u, hu, ht⟩ := hst
    exact ih (.step h (has.1 s) hu) has.2 ht

/-- A run from a reachable state stays among the reachable states. -/
theorem Reachable.exec {s t : σ} {as : List α} (h : T.Reachable Any s)
    (hst : T.exec s as = some t) : T.Reachable Any t :=
  h.exec_of (fun _ _ _ => trivial) hst

/-- The state after the actions `as`, if every step meets `P`. -/
def execIf (T : System σ α) (P : σ → α → Prop) [∀ s a, Decidable (P s a)] (s : σ) :
    List α → Option σ
  | [] => some s
  | a :: as => if P s a then (T.step s a).bind fun t => T.execIf P t as else none

theorem Reachable.execIf [∀ s a, Decidable (P s a)] {s t : σ} {as : List α} (h : T.Reachable P s)
    (hst : T.execIf P s as = some t) : T.Reachable P t := by
  induction as generalizing s with
  | nil => exact Option.some.inj hst ▸ h
  | cons a as ih =>
    rw [System.execIf] at hst
    split_ifs at hst with hP
    obtain ⟨u, hu, ht⟩ := Option.bind_eq_some_iff.mp hst
    exact ih (.step h hP hu) ht

/-- Steps in the states of an invariant meet what the invariant gives. -/
theorem along_of_invariant {J : σ → Prop} (hJ : ∀ s a t, J s → T.step s a = some t → J t)
    (hP : ∀ s a, J s → P s a) {s : σ} (as : List α) (hs : J s) : T.Along P s as := by
  induction as generalizing s with
  | nil => trivial
  | cons a as ih => exact ⟨hP s a hs, fun t ht => ih (hJ s a t hs ht)⟩

/-- What holds in every reachable state holds along a run meeting `P`. -/
theorem Reachable.always {I : σ → Prop} (hI : ∀ s, T.Reachable P s → I s) {s : σ} {as : List α}
    (h : T.Reachable P s) (hP : T.Along P s as) : T.Always I s as := by
  induction as generalizing s with
  | nil => exact hI s h
  | cons a as ih => exact ⟨hI s h, fun t ht => ih (.step h hP.1 ht) (hP.2 t ht)⟩

theorem Always.of_exec {I : σ → Prop} {s t : σ} {as : List α} (h : T.Always I s as)
    (hst : T.exec s as = some t) : I t := by
  induction as generalizing s with
  | nil => exact Option.some.inj hst ▸ h
  | cons a as ih =>
    rw [exec_cons, Option.bind_eq_some_iff] at hst
    obtain ⟨u, hu, ht⟩ := hst
    exact ih (h.2 u hu) ht

theorem Always.head {I : σ → Prop} {s : σ} {as : List α} (h : T.Always I s as) : I s := by
  cases as with
  | nil => exact h
  | cons a as => exact h.1

/-- A run stays in `I` just as long as its steps meet `P`, if this holds of every step in the
    states of an invariant `J`. -/
theorem always_iff_along {I J : σ → Prop} (hJ : ∀ s a t, J s → T.step s a = some t → J t)
    (hstep : ∀ s a t, J s → I s → T.step s a = some t → (I t ↔ P s a))
    (hnone : ∀ s a, T.step s a = none → P s a) {s : σ} {as : List α} (hs : J s) (hI : I s) :
    T.Always I s as ↔ T.Along P s as := by
  induction as generalizing s with
  | nil => exact iff_of_true hI trivial
  | cons a as ih =>
    cases hst : T.step s a with
    | none => simp [Always, Along, hst, hI, hnone s a hst]
    | some t =>
      simp only [Always, Along, hst, Option.some.injEq, forall_eq', hI, true_and]
      constructor
      · intro h
        exact ⟨(hstep s a t hs hI hst).mp h.head, (ih (hJ s a t hs hst) h.head).mp h⟩
      · intro h
        have hIt := (hstep s a t hs hI hst).mpr h.1
        exact (ih (hJ s a t hs hst) hIt).mpr h.2

/-- What every step keeps, a run keeps. -/
theorem exec_invariant {I : σ → Prop} (hstep : ∀ s a t, I s → T.step s a = some t → I t)
    {s t : σ} {as : List α} (hs : I s) (hst : T.exec s as = some t) : I t := by
  induction as generalizing s with
  | nil => exact Option.some.inj hst ▸ hs
  | cons a as ih =>
    rw [exec_cons, Option.bind_eq_some_iff] at hst
    obtain ⟨u, hu, ht⟩ := hst
    exact ih (hstep _ _ _ hs hu) ht

end System

end BurstPoolNode
