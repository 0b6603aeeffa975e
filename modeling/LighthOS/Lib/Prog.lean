/-
# Programs that may stop on the way

A program over a state returns a value, or it exits with a reason, or it is still running
when the given number of rounds is over.  In each case there is the state that it has come
to, so what is proved of the state at the end holds at every point where the program could
be interrupted.

`Prog.Along R` says that a program leads from each state to related ones, for a reflexive
and transitive relation `R`.  It is proved along the text of the program (`Along.pure`,
`Along.bind`, `Along.ite`, `Along.foldlM`).
-/

import Mathlib.Order.Defs.Unbundled
import Mathlib.Tactic.SplitIfs

/-- How a program ends. -/
inductive Prog.Result (σ ε α : Type) where
  | ok (a : α) (s : σ)
  | exit (e : ε) (s : σ)
  | runsOn (s : σ)

/-- A program with state `σ`, reasons `ε` to exit, and a value of type `α`. -/
def Prog (σ ε α : Type) : Type := σ → Prog.Result σ ε α

namespace Prog

variable {σ ε α β : Type}

/-- The state that a program has come to. -/
def Result.state : Result σ ε α → σ
  | .ok _ s => s
  | .exit _ s => s
  | .runsOn s => s

/-- Go on with a value. -/
def Result.andThen (r : Result σ ε α) (f : α → Prog σ ε β) : Result σ ε β :=
  match r with
  | .ok a s => f a s
  | .exit e s => .exit e s
  | .runsOn s => .runsOn s

instance : Monad (Prog σ ε) where
  pure a := fun s => .ok a s
  bind x f := fun s => (x s).andThen f

/-- The state. -/
def get : Prog σ ε σ := fun s => .ok s s

/-- Change the state. -/
def modify (f : σ → σ) : Prog σ ε Unit := fun s => .ok () (f s)

/-- Leave the program. -/
def exit (e : ε) : Prog σ ε α := fun s => .exit e s

/-- The rounds are over. -/
def runsOn : Prog σ ε α := fun s => .runsOn s

@[simp] theorem pure_apply (a : α) (s : σ) : (pure a : Prog σ ε α) s = .ok a s := rfl

@[simp] theorem bind_apply (x : Prog σ ε α) (f : α → Prog σ ε β) (s : σ) : (x >>= f) s = (x s).andThen f := rfl

@[simp] theorem get_apply (s : σ) : (get : Prog σ ε σ) s = .ok s s := rfl

@[simp] theorem modify_apply (f : σ → σ) (s : σ) : (modify f : Prog σ ε Unit) s = .ok () (f s) := rfl

@[simp] theorem exit_apply (e : ε) (s : σ) : (exit e : Prog σ ε α) s = .exit e s := rfl

@[simp] theorem runsOn_apply (s : σ) : (runsOn : Prog σ ε α) s = .runsOn s := rfl

@[simp] theorem Result.andThen_ok (a : α) (s : σ) (f : α → Prog σ ε β) : (Result.ok a s).andThen f = f a s := rfl

@[simp] theorem Result.andThen_exit (e : ε) (s : σ) (f : α → Prog σ ε β) :
    (Result.exit e s).andThen f = .exit e s := rfl

@[simp] theorem Result.andThen_runsOn (s : σ) (f : α → Prog σ ε β) : (Result.runsOn s).andThen f = .runsOn s := rfl

/-- **The value of a sequence**: both parts return. -/
theorem bind_eq_ok {x : Prog σ ε α} {f : α → Prog σ ε β} {s s' : σ} {b : β} :
    (x >>= f) s = .ok b s' ↔ ∃ a t, x s = .ok a t ∧ f a t = .ok b s' := by
  rw [bind_apply]
  cases x s with
  | ok a t =>
      constructor
      · exact fun h => ⟨a, t, rfl, h⟩
      · rintro ⟨a', t', h, hf⟩
        cases h
        exact hf
  | exit e t => simp
  | runsOn t => simp

/-- Every run leads to a related state. -/
def Along (R : σ → σ → Prop) (x : Prog σ ε α) : Prop := ∀ s, R s (x s).state

namespace Along

variable {R : σ → σ → Prop}

protected theorem pure [Std.Refl R] (a : α) : Along R (pure a : Prog σ ε α) := fun s => Std.Refl.refl s

protected theorem get [Std.Refl R] : Along R (get : Prog σ ε σ) := fun s => Std.Refl.refl s

protected theorem exit [Std.Refl R] (e : ε) : Along R (exit e : Prog σ ε α) := fun s => Std.Refl.refl s

protected theorem runsOn [Std.Refl R] : Along R (runsOn : Prog σ ε α) := fun s => Std.Refl.refl s

protected theorem modify {f : σ → σ} (h : ∀ s, R s (f s)) : Along R (modify f : Prog σ ε Unit) := h

/-- **One program after the other**; the second one may use what the first one returned. -/
protected theorem bind [IsTrans σ R] {x : Prog σ ε α} {f : α → Prog σ ε β} (hx : Along R x)
    (hf : ∀ a, Along R (f a)) : Along R (x >>= f) := by
  intro s
  have h := hx s
  rw [bind_apply]
  cases hr : x s with
  | ok a t =>
      rw [hr] at h
      exact IsTrans.trans _ _ _ h (hf a t)
  | exit e t =>
      rw [hr] at h
      exact h
  | runsOn t =>
      rw [hr] at h
      exact h

protected theorem ite {p : Prop} [Decidable p] {x y : Prog σ ε α} (hx : Along R x) (hy : Along R y) :
    Along R (if p then x else y) := by
  split_ifs
  · exact hx
  · exact hy

/-- A loop over a list. -/
protected theorem foldlM [Std.Refl R] [IsTrans σ R] {f : α → β → Prog σ ε α} {l : List β}
    (hf : ∀ b ∈ l, ∀ a, Along R (f a b)) (a : α) : Along R (l.foldlM f a) := by
  induction l generalizing a with
  | nil => exact .pure a
  | cons b l ih =>
      rw [List.foldlM_cons]
      exact .bind (hf b List.mem_cons_self a) fun a' => ih (fun b' hb' => hf b' (List.mem_cons_of_mem _ hb')) a'

end Along

/-- Where the first program returns, the second one returns the same. -/
def Approx (x y : Prog σ ε α) : Prop := ∀ ⦃s a s'⦄, x s = .ok a s' → y s = .ok a s'

namespace Approx

protected theorem refl (x : Prog σ ε α) : Approx x x := fun _ _ _ h => h

protected theorem runsOn (x : Prog σ ε α) : Approx runsOn x := fun _ _ _ h => by cases h

protected theorem bind {x y : Prog σ ε α} {f g : α → Prog σ ε β} (hx : Approx x y) (hf : ∀ a, Approx (f a) (g a)) :
    Approx (x >>= f) (y >>= g) := by
  intro s b s' h
  obtain ⟨a, t, ha, hb⟩ := bind_eq_ok.1 h
  exact bind_eq_ok.2 ⟨a, t, hx ha, hf a hb⟩

protected theorem ite {p : Prop} [Decidable p] {x y x' y' : Prog σ ε α} (hx : Approx x x') (hy : Approx y y') :
    Approx (if p then x else y) (if p then x' else y') := by
  split_ifs
  · exact hx
  · exact hy

end Approx

/-- What a program returns has a property. -/
def Returns (Q : α → Prop) (x : Prog σ ε α) : Prop := ∀ ⦃s a s'⦄, x s = .ok a s' → Q a

namespace Returns

variable {P : α → Prop} {Q : β → Prop}

protected theorem pure {a : α} (h : P a) : Returns P (pure a : Prog σ ε α) := fun _ _ _ heq => by
  cases heq
  exact h

protected theorem runsOn : Returns P (runsOn : Prog σ ε α) := fun _ _ _ h => by cases h

protected theorem bind {x : Prog σ ε α} {f : α → Prog σ ε β} (hx : Returns P x) (hf : ∀ a, P a → Returns Q (f a)) :
    Returns Q (x >>= f) := by
  intro s b s' h
  obtain ⟨a, t, ha, hb⟩ := bind_eq_ok.1 h
  exact hf a (hx ha) hb

/-- The first part may return anything. -/
protected theorem seq {x : Prog σ ε α} {f : α → Prog σ ε β} (hf : ∀ a, Returns Q (f a)) : Returns Q (x >>= f) :=
  .bind (fun _ _ _ _ => trivial) fun a (_ : True) => hf a

protected theorem ite {p : Prop} [Decidable p] {x y : Prog σ ε α} (hx : Returns P x) (hy : Returns P y) :
    Returns P (if p then x else y) := by
  split_ifs
  · exact hx
  · exact hy

end Returns

end Prog
