/-
# Linked lists in memory

A linked structure is its successor function `next`, with no successor where a
pointer is null.  `Segment next p l q` says that the nodes from `p` up to `q` are
those of `l`; a null-terminated list is a segment to `none`.

`search` is the loop `while (p && !found(p)) p = p->next`.  It has no result where
the loop runs for more than `fuel` rounds.  On a null-terminated list it is
`List.find?` (`search_eq_find?`).  `nodes` is the loop that visits every node.
-/

import Mathlib.Data.List.Basic
import Mathlib.Tactic.Common

namespace Linked

variable {α : Type*} {next next' : α → Option α} {p q r : Option α} {l l₁ l₂ : List α}

/-- The nodes from `p` up to, but without, `q`. -/
def Segment (next : α → Option α) : Option α → List α → Option α → Prop
  | p, [], q => p = q
  | p, a :: l, q => p = some a ∧ Segment next (next a) l q

/-- The first node from `p` on with `found`, if there is one. -/
def search (next : α → Option α) (found : α → Bool) : ℕ → Option α → Option (Option α)
  | _, none => some none
  | 0, some _ => none
  | fuel + 1, some a => if found a then some (some a) else search next found fuel (next a)

/-- The first node from `p` on with `found`, with the node before it; `prev` is the
node before `p`. -/
def searchPrev (next : α → Option α) (found : α → Bool) :
    ℕ → Option α → Option α → Option (Option (Option α × α))
  | _, _, none => some none
  | 0, _, some _ => none
  | fuel + 1, prev, some a =>
      if found a then some (some (prev, a)) else searchPrev next found fuel (some a) (next a)

/-- The nodes from `p` to the end. -/
def nodes (next : α → Option α) : ℕ → Option α → Option (List α)
  | _, none => some []
  | 0, some _ => none
  | fuel + 1, some a => (nodes next fuel (next a)).map (a :: ·)

theorem segment_append :
    Segment next p (l₁ ++ l₂) q ↔ ∃ r, Segment next p l₁ r ∧ Segment next r l₂ q := by
  induction l₁ generalizing p with
  | nil => simp [Segment]
  | cons a l₁ ih => simp [Segment, ih, and_assoc]

/-- A segment depends on the successors of its nodes only. -/
theorem Segment.congr (h : Segment next p l q) (hn : ∀ a ∈ l, next' a = next a) :
    Segment next' p l q := by
  induction l generalizing p with
  | nil => exact h
  | cons a l ih =>
      refine ⟨h.1, ?_⟩
      rw [hn a List.mem_cons_self]
      exact ih h.2 fun b hb => hn b (List.mem_cons_of_mem a hb)

/-- The first node whose successor is `b` is the one before `b`. -/
theorem Segment.find?_before [DecidableEq α] {a b : α} (h : Segment next p (l₁ ++ a :: b :: l₂) q)
    (hn : (l₁ ++ a :: b :: l₂).Nodup) :
    (l₁ ++ a :: b :: l₂).find? (fun x => decide (next x = some b)) = some a := by
  induction l₁ generalizing p with
  | nil => simp [h.2.1]
  | cons c l₁ ih =>
      obtain ⟨-, h⟩ := h
      have hne : next c ≠ some b := by
        cases l₁ with
        | nil =>
            obtain ⟨hc, -⟩ := h
            rw [hc, ne_eq, Option.some.injEq]
            rintro rfl
            simp at hn
        | cons d l₁ =>
            obtain ⟨hc, -⟩ := h
            rw [hc, ne_eq, Option.some.injEq]
            rintro rfl
            simp at hn
      rw [List.cons_append, List.find?_cons, decide_eq_false hne]
      exact ih h (List.nodup_cons.1 hn).2

/-- **A search along a null-terminated list** ends with its first match. -/
theorem search_eq_find? {found : α → Bool} {fuel : ℕ} (h : Segment next p l none)
    (hf : l.length ≤ fuel) : search next found fuel p = some (l.find? found) := by
  induction l generalizing p fuel with
  | nil =>
      cases h
      cases fuel <;> rfl
  | cons a l ih =>
      obtain ⟨rfl, h⟩ := h
      obtain ⟨fuel, rfl⟩ : ∃ n, fuel = n + 1 := ⟨fuel - 1, by simp at hf; omega⟩
      rw [search, List.find?_cons]
      cases found a with
      | true => rfl
      | false => exact ih h (by simpa using hf)

/-- A search does not end in a node that is its own successor. -/
theorem searchPrev_self {found : α → Bool} {a : α} (hnext : next a = some a) (hfound : found a = false) (fuel : ℕ)
    (prev : Option α) : searchPrev next found fuel prev (some a) = none := by
  induction fuel generalizing prev with
  | zero => rfl
  | succ fuel ih => rw [searchPrev, hfound, hnext, if_neg Bool.false_ne_true, ih]

/-- **A search with the node before**: the list splits at the first match, or there
is none. -/
theorem searchPrev_cases (found : α → Bool) (prev : Option α) {fuel : ℕ} (h : Segment next p l none)
    (hf : l.length ≤ fuel) :
    (searchPrev next found fuel prev p = some none ∧ ∀ a ∈ l, found a = false) ∨
    ∃ l₁ a l₂, l = l₁ ++ a :: l₂ ∧ found a = true ∧ (∀ b ∈ l₁, found b = false) ∧
      searchPrev next found fuel prev p = some (some ((some <$> l₁.getLast?).getD prev, a)) := by
  induction l generalizing p fuel prev with
  | nil =>
      cases h
      cases fuel <;> exact Or.inl ⟨rfl, by simp⟩
  | cons a l ih =>
      obtain ⟨rfl, h⟩ := h
      obtain ⟨fuel, rfl⟩ : ∃ n, fuel = n + 1 := ⟨fuel - 1, by simp at hf; omega⟩
      rw [searchPrev]
      cases hfound : found a with
      | true => exact Or.inr ⟨[], a, l, rfl, hfound, by simp, by simp⟩
      | false =>
          simp only [Bool.false_eq_true, if_false]
          rcases ih (some a) h (by simpa using hf) with ⟨hs, hnone⟩ | ⟨l₁, b, l₂, rfl, hb, hno, hs⟩
          · exact Or.inl ⟨hs, by simpa [hfound] using hnone⟩
          · refine Or.inr ⟨a :: l₁, b, l₂, rfl, hb, by simpa [hfound] using hno, ?_⟩
            rw [hs, List.getLast?_cons]
            cases l₁.getLast? <;> rfl

theorem nodes_eq {fuel : ℕ} (h : Segment next p l none) (hf : l.length ≤ fuel) :
    nodes next fuel p = some l := by
  induction l generalizing p fuel with
  | nil =>
      cases h
      cases fuel <;> rfl
  | cons a l ih =>
      obtain ⟨rfl, h⟩ := h
      obtain ⟨fuel, rfl⟩ : ∃ n, fuel = n + 1 := ⟨fuel - 1, by simp at hf; omega⟩
      rw [nodes, ih h (by simpa using hf), Option.map_some]

end Linked
