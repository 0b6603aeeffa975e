/-
# Transition systems and what holds along their runs

A system is a predicate of initial states and a labelled step relation.  A
state is reached when some finite run ends in it; a property that holds
initially and that every step keeps holds of every state reached
(`System.Reaches.invariant`).

A system is restricted by a guard on its steps (`System.restrict`): the runs of
the restriction are exactly the runs whose steps all meet the guard.  A
deterministic system is given by a partial step function (`System.ofFun`), and
a list of labels that executes is then a run (`System.ofFun_reaches`,
`System.ofFun_restrict_reaches`, `System.exists_reaches`).
-/

import Mathlib.Logic.Function.Basic

/-- Initial states and labelled steps. -/
structure System (σ α : Type*) where
  init : σ → Prop
  step : σ → α → σ → Prop

namespace System

variable {σ α : Type*}

/-- The states at the end of a finite run. -/
inductive Reaches (S : System σ α) : σ → Prop
  | init {s : σ} (h : S.init s) : Reaches S s
  | step {s s' : σ} {a : α} (h : Reaches S s) (hs : S.step s a s') : Reaches S s'

/-- **Induction over a run.**  What holds initially and is kept by every step
holds of every state reached. -/
theorem Reaches.invariant {S : System σ α} {I : σ → Prop} {s : σ} (hr : S.Reaches s)
    (h₀ : ∀ s, S.init s → I s) (hI : ∀ s a s', I s → S.step s a s' → I s') : I s := by
  induction hr with
  | init h => exact h₀ _ h
  | step _ hs ih => exact hI _ _ _ ih hs

/-- The runs all of whose steps meet `ok`. -/
def restrict (S : System σ α) (ok : σ → α → Prop) : System σ α where
  init := S.init
  step s a s' := ok s a ∧ S.step s a s'

/-- The deterministic system that steps by `f`, where `f` is defined. -/
def ofFun (init : σ → Prop) (f : σ → α → Option σ) : System σ α where
  init := init
  step s a s' := f s a = some s'

/-- Execute a list of labels. -/
def exec (f : σ → α → Option σ) : σ → List α → Option σ
  | s, [] => some s
  | s, a :: l => (f s a).bind fun s' => exec f s' l

section Exec

variable {S : System σ α} {init : σ → Prop} {f : σ → α → Option σ} {ok : σ → α → Prop}
  [∀ s a, Decidable (ok s a)] {s s' : σ} {l : List α}

/-- A list of labels that executes by steps of the system ends in a reached state. -/
theorem Reaches.exec (hf : ∀ s a s', f s a = some s' → S.step s a s') (hs : S.Reaches s)
    (h : exec f s l = some s') : S.Reaches s' := by
  induction l generalizing s with
  | nil =>
      rw [System.exec, Option.some.injEq] at h
      exact h ▸ hs
  | cons a l ih =>
      rw [System.exec, Option.bind_eq_some_iff] at h
      obtain ⟨t, ht, h⟩ := h
      exact ih (hs.step (hf s a t ht)) h

theorem ofFun_reaches (hs : (ofFun init f).Reaches s) (h : exec f s l = some s') : (ofFun init f).Reaches s' :=
  hs.exec (fun _ _ _ h => h) h

/-- A list of labels that executes with a guard on every step is a run of the
restriction. -/
theorem ofFun_restrict_reaches (hs : ((ofFun init f).restrict ok).Reaches s)
    (h : exec (fun s a => if ok s a then f s a else none) s l = some s') :
    ((ofFun init f).restrict ok).Reaches s' := by
  refine hs.exec (fun s a s' h => ?_) h
  split at h
  · next hok => exact ⟨hok, h⟩
  · cases h

variable {start : Option σ} {P : σ → Prop} [DecidablePred P]

/-- A computed run from an initial state that ends with a given property. -/
theorem exists_reaches (hinit : ∀ s, start = some s → init s)
    (h : (start.bind fun s => exec f s l).any (fun s => decide (P s)) = true) :
    ∃ s, (ofFun init f).Reaches s ∧ P s := by
  obtain ⟨s, hs, hP⟩ := (Option.any_eq_true _ _).1 h
  obtain ⟨s₀, hs₀, hrun⟩ := Option.bind_eq_some_iff.1 hs
  exact ⟨s, ofFun_reaches (.init (hinit s₀ hs₀)) hrun, of_decide_eq_true hP⟩

theorem exists_restrict_reaches (hinit : ∀ s, start = some s → init s)
    (h : (start.bind fun s => exec (fun s a => if ok s a then f s a else none) s l).any
      (fun s => decide (P s)) = true) : ∃ s, ((ofFun init f).restrict ok).Reaches s ∧ P s := by
  obtain ⟨s, hs, hP⟩ := (Option.any_eq_true _ _).1 h
  obtain ⟨s₀, hs₀, hrun⟩ := Option.bind_eq_some_iff.1 hs
  exact ⟨s, ofFun_restrict_reaches (.init (hinit s₀ hs₀)) hrun, of_decide_eq_true hP⟩

end Exec

end System
