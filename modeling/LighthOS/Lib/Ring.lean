/-
# Ring buffers

A ring of capacity `cap` is a cell array `buf`, of which the `n` cells from
`pos` on, wrapping at `cap`, are the queue (`Ring.view`).  The two copying loops
of a ring are `Ring.take`, which reads cell after cell and advances the read
position, and `Ring.put`, which stores element after element and advances the
write position.  Reading takes a prefix of the queue (`Ring.take_fst`,
`Ring.view_add`); writing at the end of the queue appends to it as long as the
capacity suffices (`Ring.view_put`).
-/

import Mathlib.Data.List.Basic
import Mathlib.Logic.Function.Basic

namespace Ring

variable {α : Type*} (cap : ℕ)

/-- The `n` cells from `pos` on, in queue order. -/
def view (buf : ℕ → α) (pos n : ℕ) : List α :=
  (List.range n).map fun i => buf ((pos + i) % cap)

/-- Read `n` cells from `pos` on: the elements, and the new position. -/
def take (buf : ℕ → α) : ℕ → ℕ → List α × ℕ
  | pos, 0 => ([], pos)
  | pos, n + 1 => (buf pos :: (take buf ((pos + 1) % cap) n).1, (take buf ((pos + 1) % cap) n).2)

/-- Store the elements from `pos` on: the new cells, and the new position. -/
def put : (ℕ → α) → ℕ → List α → (ℕ → α) × ℕ
  | buf, pos, [] => (buf, pos)
  | buf, pos, x :: xs => put (Function.update buf pos x) ((pos + 1) % cap) xs

@[simp] theorem view_zero (buf : ℕ → α) (pos : ℕ) : view cap buf pos 0 = [] := rfl

@[simp] theorem length_view (buf : ℕ → α) (pos n : ℕ) : (view cap buf pos n).length = n := by
  simp [view]

/-- The queue of `m + n` cells is the queue of `m` cells followed by the queue
of `n` cells that starts where it ends. -/
theorem view_add (buf : ℕ → α) (pos m n : ℕ) :
    view cap buf pos (m + n) = view cap buf pos m ++ view cap buf ((pos + m) % cap) n := by
  simp only [view, List.range_add, List.map_append, List.map_map]
  congr 2
  funext i
  simp [Nat.add_assoc]

/-- The reading loop returns the queue prefix. -/
theorem take_fst (buf : ℕ → α) {pos : ℕ} (hpos : pos < cap) (n : ℕ) :
    (take cap buf pos n).1 = view cap buf pos n := by
  induction n generalizing pos with
  | zero => rfl
  | succ n ih =>
      have h : view cap buf pos (1 + n) = buf pos :: view cap buf ((pos + 1) % cap) n := by
        rw [view_add]
        simp [view, Nat.mod_eq_of_lt hpos]
      rw [take, ih (Nat.mod_lt _ (by omega)), Nat.add_comm n 1, h]

/-- The reading loop advances the position by what it read. -/
theorem take_snd (buf : ℕ → α) {pos : ℕ} (hpos : pos < cap) (n : ℕ) :
    (take cap buf pos n).2 = (pos + n) % cap := by
  induction n generalizing pos with
  | zero => simp [take, Nat.mod_eq_of_lt hpos]
  | succ n ih =>
      rw [take, ih (Nat.mod_lt _ (by omega)), Nat.mod_add_mod, Nat.add_assoc, Nat.add_comm 1 n]

/-- The writing loop advances the position by what it stored. -/
theorem put_snd (buf : ℕ → α) {pos : ℕ} (hpos : pos < cap) (xs : List α) :
    (put cap buf pos xs).2 = (pos + xs.length) % cap := by
  induction xs generalizing buf pos with
  | nil => simp [put, Nat.mod_eq_of_lt hpos]
  | cons x xs ih =>
      rw [put, ih _ (Nat.mod_lt _ (by omega)), Nat.mod_add_mod, List.length_cons, Nat.add_assoc,
        Nat.add_comm 1 xs.length]

/-- Two offsets below the capacity name different cells. -/
theorem add_mod_ne {pos i j : ℕ} (hij : i < j) (hj : j < cap) :
    (pos + i) % cap ≠ (pos + j) % cap := by
  intro h
  have h₁ : (pos + j - (pos + i)) % cap = 0 := Nat.sub_mod_eq_zero_of_mod_eq h.symm
  rw [show pos + j - (pos + i) = j - i by omega, Nat.mod_eq_of_lt (by omega)] at h₁
  omega

/-- Storing at the end of a queue that does not fill the ring appends to it. -/
theorem view_update (buf : ℕ → α) (pos : ℕ) {n : ℕ} (hn : n < cap) (x : α) :
    view cap (Function.update buf ((pos + n) % cap) x) pos (n + 1) = view cap buf pos n ++ [x] := by
  simp only [view, List.range_succ, List.map_append, List.map_cons, List.map_nil]
  congr 1
  · refine List.map_congr_left fun i hi => Function.update_of_ne ?_ _ _
    exact add_mod_ne cap (List.mem_range.1 hi) hn
  · simp

/-- **The writing loop appends to the queue**, while the ring has room. -/
theorem view_put (buf : ℕ → α) (pos : ℕ) {n : ℕ} (xs : List α) (h : n + xs.length ≤ cap) :
    view cap (put cap buf ((pos + n) % cap) xs).1 pos (n + xs.length) = view cap buf pos n ++ xs := by
  induction xs generalizing buf n with
  | nil => simp [put]
  | cons x xs ih =>
      rw [List.length_cons] at h
      have hput : put cap buf ((pos + n) % cap) (x :: xs)
          = put cap (Function.update buf ((pos + n) % cap) x) ((pos + (n + 1)) % cap) xs := by
        rw [put, Nat.mod_add_mod, Nat.add_assoc]
      rw [hput, List.length_cons, show n + (xs.length + 1) = n + 1 + xs.length by omega,
        ih _ (by omega), view_update cap buf pos (by omega), List.append_assoc, List.singleton_append]

end Ring
