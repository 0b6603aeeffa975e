/-
# Loops that stop early

A `for` loop of a C program whose body may leave the loop (`break`, `return`) or
halt the machine.  The body gives, for an element and a state, no result where
the machine halts, and otherwise the next state and whether the loop goes on.
An invariant of the body holds when the loop ends, however it ends
(`Loop.run_inv`); for a loop that runs to its end only rounds that go on have to
keep it (`Loop.run_going`).  A loop that only looks for an element is `List.find?`
(`Loop.run_find`), and nested loops are one loop over the elements of all of them
(`Loop.run_flatMap`).
-/

import Mathlib.Data.List.Basic

namespace Loop

variable {α σ : Type*} {body : α → σ → Option (Bool × σ)} {l : List α}

/-- Run the body over a list; the result says whether the loop ran to its end. -/
def run (body : α → σ → Option (Bool × σ)) : List α → σ → Option (Bool × σ)
  | [], s => some (true, s)
  | a :: l, s => match body a s with
    | none => none
    | some (false, s) => some (false, s)
    | some (true, s) => run body l s

/-- **The invariant rule.** -/
theorem run_inv {I : σ → Prop} (hbody : ∀ a ∈ l, ∀ s b s', I s → body a s = some (b, s') → I s') {s s' : σ} {b : Bool}
    (hs : I s) (h : run body l s = some (b, s')) : I s' := by
  induction l generalizing s with
  | nil =>
      cases h
      exact hs
  | cons a l ih =>
      rw [run] at h
      split at h
      · cases h
      · next s₁ h₁ =>
          cases h
          exact hbody a List.mem_cons_self s false s' hs h₁
      · next s₁ h₁ =>
          exact ih (fun a' ha' => hbody a' (List.mem_cons_of_mem a ha'))
            (hbody a List.mem_cons_self s true s₁ hs h₁) h

/-- **The invariant rule for a loop that runs to its end**: only rounds that go on have to
keep the invariant. -/
theorem run_going {I : σ → Prop} (hbody : ∀ a ∈ l, ∀ s s', I s → body a s = some (true, s') → I s') {s s' : σ}
    (hs : I s) (h : run body l s = some (true, s')) : I s' := by
  induction l generalizing s with
  | nil =>
      cases h
      exact hs
  | cons a l ih =>
      rw [run] at h
      split at h
      · cases h
      · cases h
      · next s₁ h₁ =>
          exact ih (fun a' ha' => hbody a' (List.mem_cons_of_mem a ha'))
            (hbody a List.mem_cons_self s s₁ hs h₁) h

/-- **The search rule.**  A loop that does nothing in the rounds for elements without `p`,
and stops in those for elements with `p`, does what the round for the first element with
`p` does. -/
theorem run_find {p : α → Bool} {s : σ} (hgo : ∀ a ∈ l, p a = false → body a s = some (true, s))
    (hstop : ∀ a ∈ l, p a = true → ∀ s', body a s ≠ some (true, s')) :
    run body l s = (l.find? p).elim (some (true, s)) fun a => body a s := by
  induction l with
  | nil => rfl
  | cons a l ih =>
      rw [run, List.find?_cons]
      cases hp : p a with
      | false =>
          rw [hgo a List.mem_cons_self hp]
          exact ih (fun b hb => hgo b (List.mem_cons_of_mem a hb))
            fun b hb => hstop b (List.mem_cons_of_mem a hb)
      | true =>
          have hne := hstop a List.mem_cons_self hp
          rcases hb : body a s with _ | ⟨_ | _, s'⟩
          · simp [hb]
          · simp [hb]
          · exact absurd hb (hne s')

/-- Rounds that do not halt make a loop that does not halt. -/
theorem run_isSome (hbody : ∀ a ∈ l, ∀ s, (body a s).isSome) (s : σ) : (run body l s).isSome := by
  induction l generalizing s with
  | nil => rfl
  | cons a l ih =>
      have hround := hbody a List.mem_cons_self s
      rw [run]
      rcases hb : body a s with _ | ⟨_ | _, s'⟩
      · rw [hb] at hround
        cases hround
      · rfl
      · exact ih (fun a' ha' => hbody a' (List.mem_cons_of_mem a ha')) s'

/-- Rounds that do the same make loops that do the same. -/
theorem run_congr {body body' : α → σ → Option (Bool × σ)} {I : σ → Prop}
    (hbody : ∀ a ∈ l, ∀ s, I s → body a s = body' a s ∧ ∀ s', body' a s = some (true, s') → I s')
    {s : σ} (hs : I s) : run body l s = run body' l s := by
  induction l generalizing s with
  | nil => rfl
  | cons a l ih =>
      obtain ⟨heq, hinv⟩ := hbody a List.mem_cons_self s hs
      rw [run, run, heq]
      cases hb : body' a s with
      | none => rfl
      | some r =>
          obtain ⟨b, s'⟩ := r
          cases b with
          | false => rfl
          | true => exact ih (fun a' ha' => hbody a' (List.mem_cons_of_mem a ha')) (hinv s' hb)

/-- A loop over the images of the elements. -/
theorem run_map {β : Type*} (body : α → σ → Option (Bool × σ)) (g : β → α) (l : List β) (s : σ) :
    run (fun b s => body (g b) s) l s = run body (l.map g) s := by
  induction l generalizing s with
  | nil => rfl
  | cons b l ih =>
      rw [List.map_cons, run, run]
      rcases body (g b) s with _ | ⟨_ | _, s'⟩
      · rfl
      · rfl
      · exact ih s'

/-- A loop over two lists, one after the other. -/
theorem run_append (body : α → σ → Option (Bool × σ)) (l₁ l₂ : List α) (s : σ) :
    run body (l₁ ++ l₂) s = match run body l₁ s with
      | none => none
      | some (false, s) => some (false, s)
      | some (true, s) => run body l₂ s := by
  induction l₁ generalizing s with
  | nil => rfl
  | cons a l₁ ih =>
      rw [List.cons_append, run, run]
      rcases body a s with _ | ⟨_ | _, s'⟩
      · rfl
      · rfl
      · exact ih s'

/-- **Nested loops are one loop.** -/
theorem run_flatMap {β : Type*} (body : α → σ → Option (Bool × σ)) (g : β → List α) (l : List β)
    (s : σ) : run body (l.flatMap g) s = run (fun b s => run body (g b) s) l s := by
  induction l generalizing s with
  | nil => rfl
  | cons b l ih =>
      rw [List.flatMap_cons, run_append, run]
      rcases run body (g b) s with _ | ⟨_ | _, s'⟩
      · rfl
      · rfl
      · exact ih s'

end Loop
