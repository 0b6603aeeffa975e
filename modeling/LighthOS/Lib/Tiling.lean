/-
# Tilings of an interval

Tiles with a position and a length lie one behind the other from `a` up to `e`.
The tiles before a given one end at its position or below and those behind it
start at its end or above, so that nothing stored inside a tile touches another
(`Tiles.before`, `Tiles.behind`).
-/

import Mathlib.Algebra.BigOperators.Group.List.Basic
import Mathlib.Tactic

namespace Tiling

variable {β : Type*} {pos len : β → ℕ}

/-- The tiles of `l` cover the interval from `a` to `e`. -/
def Tiles (pos len : β → ℕ) : ℕ → List β → ℕ → Prop
  | a, [], e => a = e
  | a, b :: l, e => pos b = a ∧ Tiles pos len (a + len b) l e

variable {a e : ℕ} {l l₁ l₂ : List β} {b c : β}

theorem tiles_append :
    Tiles pos len a (l₁ ++ l₂) e ↔ ∃ m, Tiles pos len a l₁ m ∧ Tiles pos len m l₂ e := by
  induction l₁ generalizing a with
  | nil => simp [Tiles]
  | cons b l₁ ih => simp [Tiles, ih, and_assoc]

theorem tiles_singleton : Tiles pos len a [b] e ↔ pos b = a ∧ a + len b = e := Iff.rfl

namespace Tiles

section

variable (h : Tiles pos len a l e)
include h

theorem sum_len : a + (l.map len).sum = e := by
  induction l generalizing a with
  | nil => simpa [Tiles] using h
  | cons b l ih =>
      have := ih h.2
      rw [List.map_cons, List.sum_cons]
      omega

theorem le : a ≤ e := by
  have := h.sum_len
  omega

/-- A tiling depends on the lengths of its tiles only. -/
theorem congr {len' : β → ℕ} (hl : ∀ b ∈ l, len' b = len b) : Tiles pos len' a l e := by
  induction l generalizing a with
  | nil => exact h
  | cons b l ih =>
      refine ⟨h.1, ?_⟩
      rw [hl b List.mem_cons_self]
      exact ih h.2 fun c hc => hl c (List.mem_cons_of_mem b hc)

/-- The tiles lie inside the interval. -/
theorem bounds (hb : b ∈ l) : a ≤ pos b ∧ pos b + len b ≤ e := by
  induction l generalizing a with
  | nil => cases hb
  | cons c l ih =>
      obtain ⟨rfl, h⟩ := h
      rcases List.mem_cons.1 hb with rfl | hb
      · exact ⟨Nat.le_refl _, h.le⟩
      · obtain ⟨h₁, h₂⟩ := ih h hb
        exact ⟨by omega, h₂⟩

end

section

variable (h : Tiles pos len a (l₁ ++ b :: l₂) e)
include h

theorem split : Tiles pos len a l₁ (pos b) ∧ Tiles pos len (pos b + len b) l₂ e := by
  obtain ⟨m, h₁, rfl, h₂⟩ := tiles_append.1 h
  exact ⟨h₁, h₂⟩

/-- The tiles before `b` end where `b` starts, or below. -/
theorem before (hc : c ∈ l₁) : pos c + len c ≤ pos b :=
  (h.split.1.bounds hc).2

/-- The tiles behind `b` start where `b` ends, or above. -/
theorem behind (hc : c ∈ l₂) : pos b + len b ≤ pos c :=
  (h.split.2.bounds hc).1

end

section

variable (h : Tiles pos len a l e)
include h

/-- Two tiles are the same, or one lies behind the other. -/
theorem eq_or_apart (hb : b ∈ l) (hc : c ∈ l) : b = c ∨ pos b + len b ≤ pos c ∨ pos c + len c ≤ pos b := by
  obtain ⟨l₁, l₂, rfl⟩ := List.append_of_mem hb
  rcases List.mem_append.1 hc with hc | hc
  · exact Or.inr (Or.inr (h.before hc))
  · rcases List.mem_cons.1 hc with rfl | hc
    · exact Or.inl rfl
    · exact Or.inr (Or.inl (h.behind hc))

/-- Where tiles are not empty there is one for each position. -/
theorem eq_of_pos_eq (hlen : ∀ b ∈ l, 0 < len b) (hb : b ∈ l) (hc : c ∈ l) (hp : pos b = pos c) : b = c := by
  have h₁ := hlen b hb
  have h₂ := hlen c hc
  rcases h.eq_or_apart hb hc with heq | hd | hd
  · exact heq
  · omega
  · omega

/-- Tiles that are not empty do not repeat. -/
theorem nodup (hlen : ∀ b ∈ l, 0 < len b) : l.Nodup := by
  induction l generalizing a with
  | nil => exact List.nodup_nil
  | cons b l ih =>
      obtain ⟨rfl, h⟩ := h
      refine List.nodup_cons.2 ⟨fun hb => ?_, ih h fun c hc => hlen c (List.mem_cons_of_mem b hc)⟩
      have h₁ := (h.bounds hb).1
      have h₂ := hlen b List.mem_cons_self
      omega

/-- Only so many tiles of a given length fit. -/
theorem length_mul_le {m : ℕ} (hlen : ∀ b ∈ l, m ≤ len b) : a + l.length * m ≤ e := by
  induction l generalizing a with
  | nil => simpa using h.le
  | cons b l ih =>
      have h₁ := ih h.2 fun c hc => hlen c (List.mem_cons_of_mem b hc)
      have h₂ := hlen b List.mem_cons_self
      rw [List.length_cons, Nat.add_mul, Nat.one_mul]
      omega

end

end Tiles

end Tiling
