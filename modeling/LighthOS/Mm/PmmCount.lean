/-
# The count of used frames

`src/mm/pmm.c` counts in `used_frames` what it does to the bits of the frames.  Each function that
changes a bit of a frame that is there changes the count with it, and leaves the bits behind the
last frame alone (`Counted`); this holds for all arguments, also for those that wrap around.

The exception are two loops of `pmm_init`, for the first MiB and for the kernel: they do not ask
whether there is such a frame.  A bit behind the bitmap is some bit of the memory there, and where
it is clear it is set and counted.  `pmmInitOn` is `pmm_init` over a memory with given bits, and
after it the count is too high by the number of those bits (`pmmInitOn_excess`).
-/

import LighthOS.Mm.Pmm
import Mathlib.Data.Nat.Count

namespace LighthOS

/-- `bitmap_words` for the memory map. -/
def initWords (mbi : Multiboot) : ℕ := (memEnd mbi / pageSize + 31) / 32

/-- The state of `pmm.c` after the `memset` of `pmm_init`, where the bits of the memory from the bitmap
on were `memory`. -/
def pmmMarked (memory : ℕ → Bool) (mbi : Multiboot) : Pmm where
  bitmap f := f < 32 * initWords mbi || memory f
  bitmapWords := initWords mbi
  totalFrames := memEnd mbi / pageSize
  usedFrames := memEnd mbi / pageSize

/-- `pmm_init` over a memory with the bits `memory`. -/
def pmmInitOn (memory : ℕ → Bool) (mbi : Multiboot) (kernelEnd : ℕ) : Pmm :=
  let p := pmmFreeAvailable (pmmMarked memory mbi) mbi
  let p := p.reserveFrom 0 lowFrames
  let p := p.reserveFrom lowFrames (bitmapEndFrame kernelEnd (initWords mbi) - lowFrames)
  pmmReserveModules p mbi

/-- Over a memory whose bits are set, this is the `pmm_init` of the rest of the development. -/
theorem pmmInitOn_true (mbi : Multiboot) (kernelEnd : ℕ) :
    pmmInitOn (fun _ => true) mbi kernelEnd = pmmInit mbi kernelEnd := by
  simp only [pmmInitOn, pmmMarked, pmmInit, initWords, Bool.or_true]

/-! ### Counting bits -/

/-- The number of set bits below `n`, after a clear bit was set. -/
theorem count_set {b : ℕ → Bool} {f : ℕ} (hf : b f = false) (n : ℕ) :
    Nat.count (fun g => Function.update b f true g = true) n
      = Nat.count (fun g => b g = true) n + if f < n then 1 else 0 := by
  induction n with
  | zero => simp
  | succ n ih =>
      rw [Nat.count_succ, Nat.count_succ, ih]
      by_cases hn : n = f
      · simp [hn, hf]
      · have hlt : f < n + 1 ↔ f < n := by omega
        simp only [Function.update_of_ne hn, hlt]
        omega

/-- The number of set bits below `n`, after a set bit was cleared. -/
theorem count_clear {b : ℕ → Bool} {f : ℕ} (hf : b f = true) (n : ℕ) :
    Nat.count (fun g => Function.update b f false g = true) n + (if f < n then 1 else 0)
      = Nat.count (fun g => b g = true) n := by
  have hback : Function.update (Function.update b f false) f true = b := by
    rw [Function.update_idem, ← hf, Function.update_eq_self]
  have hset := count_set (Function.update_self f false b) n
  rw [hback] at hset
  exact hset.symm

/-- `used_frames` is the number of set bits below `total_frames`, and `e` more. -/
def Pmm.Excess (p : Pmm) (e : ℕ) : Prop :=
  p.usedFrames = Nat.count (fun f => p.bitmap f = true) p.totalFrames + e

/-- Reserving a frame: one that is not there is counted too. -/
theorem Pmm.Excess.reserve {p : Pmm} {e : ℕ} (h : p.Excess e) (f : ℕ) :
    (p.reserve f).Excess (e + if p.totalFrames ≤ f ∧ p.bitmap f = false then 1 else 0) := by
  unfold Pmm.Excess at h ⊢
  unfold Pmm.reserve
  cases hf : p.bitmap f with
  | true => simpa using h
  | false =>
      simp only [Bool.false_eq_true, if_false, and_true, count_set hf, h]
      split_ifs <;> omega

/-- Releasing a frame that is there. -/
theorem Pmm.Excess.release {p : Pmm} {e f : ℕ} (h : p.Excess e) (hf : f < p.totalFrames) :
    (p.release f).Excess e := by
  unfold Pmm.Excess at h ⊢
  unfold Pmm.release
  split_ifs with hset
  · have hcount := count_clear hset p.totalFrames
    rw [if_pos hf] at hcount
    simp only [h, ← hcount]
    omega
  · exact h

theorem Pmm.reserve_bitmap (p : Pmm) (f g : ℕ) : (p.reserve f).bitmap g = (p.bitmap g || decide (g = f)) := by
  unfold Pmm.reserve
  by_cases hg : g = f
  · subst hg
    cases hset : p.bitmap g <;> simp [hset]
  · split_ifs <;> simp [hg]

/-- Which bits are set after a range was reserved. -/
theorem Pmm.reserveFrom_bitmap (p : Pmm) (first n g : ℕ) :
    (p.reserveFrom first n).bitmap g = (p.bitmap g || decide (first ≤ g ∧ g < first + n)) := by
  unfold Pmm.reserveFrom
  induction n generalizing p first with
  | zero => simp
  | succ n ih =>
      rw [List.range'_succ, List.foldl_cons, ih, Pmm.reserve_bitmap, Bool.or_assoc, ← Bool.decide_or]
      congr 2
      exact propext (by omega)

theorem Pmm.reserveFrom_bitmapWords (p : Pmm) (first n : ℕ) :
    (p.reserveFrom first n).bitmapWords = p.bitmapWords :=
  List.foldlRecOn (motive := fun p' : Pmm => p'.bitmapWords = p.bitmapWords) _ _ rfl fun p' hp' f _ => by
    unfold Pmm.reserve
    split_ifs <;> exact hp'

/-- Two ranges, one behind the other. -/
theorem Pmm.reserveFrom_add (p : Pmm) (m n : ℕ) :
    (p.reserveFrom 0 m).reserveFrom m n = p.reserveFrom 0 (m + n) := by
  unfold Pmm.reserveFrom
  rw [← List.foldl_append]
  congr 1
  have happend := @List.range'_append_1 0 m n
  rwa [Nat.zero_add] at happend

/-- Reserving a range: the clear bits behind the last frame are counted. -/
theorem Pmm.Excess.reserveFrom {p : Pmm} {e : ℕ} (h : p.Excess e) (first n : ℕ) :
    (p.reserveFrom first n).Excess
      (e + (List.range' first n).countP fun f => p.totalFrames ≤ f && !p.bitmap f) := by
  induction n generalizing p e first with
  | zero => exact h
  | succ n ih =>
      have hrest := ih (h.reserve first) (first + 1)
      have hsame : ∀ f ∈ List.range' (first + 1) n,
          ((decide ((p.reserve first).totalFrames ≤ f) && !(p.reserve first).bitmap f) = true ↔
            (decide (p.totalFrames ≤ f) && !p.bitmap f) = true) := by
        intro f hf
        have hne : f ≠ first := by
          have := (List.mem_range'_1.1 hf).1
          omega
        simp [Pmm.reserve_totalFrames, Pmm.reserve_bitmap, hne]
      rw [List.countP_congr hsame] at hrest
      rw [List.range'_succ, List.countP_cons]
      have hmove : ∀ c, e + (if p.totalFrames ≤ first ∧ p.bitmap first = false then 1 else 0) + c
          = e + (c + if (decide (p.totalFrames ≤ first) && !p.bitmap first) = true then 1 else 0) := by
        intro c
        simp only [Bool.and_eq_true, decide_eq_true_eq, Bool.not_eq_true']
        omega
      rw [← hmove]
      exact hrest

/-! ### Changes that are counted -/

/-- From `p` to `p'` only bits of frames that are there change, and the count follows them. -/
structure Counted (p p' : Pmm) : Prop where
  total : p'.totalFrames = p.totalFrames
  words : p'.bitmapWords = p.bitmapWords
  behind : ∀ g, p.totalFrames ≤ g → p'.bitmap g = p.bitmap g
  excess : ∀ {e}, p.Excess e → p'.Excess e

namespace Counted

variable {p p' p'' : Pmm}

theorem refl (p : Pmm) : Counted p p := ⟨rfl, rfl, fun _ _ => rfl, id⟩

theorem trans (h : Counted p p') (h' : Counted p' p'') : Counted p p'' where
  total := h'.total.trans h.total
  words := h'.words.trans h.words
  behind g hg := (h'.behind g (h.total ▸ hg)).trans (h.behind g hg)
  excess he := h'.excess (h.excess he)

/-- A loop whose rounds are counted. -/
theorem foldl {α : Type} {f : Pmm → α → Pmm} {l : List α}
    (h : ∀ q, q.totalFrames = p.totalFrames → ∀ a ∈ l, Counted q (f q a)) : Counted p (l.foldl f p) := by
  refine List.foldlRecOn (motive := fun q => Counted p q) l f (refl p) fun q hq a ha => ?_
  exact hq.trans (h q hq.total a ha)

theorem release {f : ℕ} (hf : f < p.totalFrames) : Counted p (p.release f) := by
  refine ⟨?_, ?_, fun g hg => ?_, fun he => he.release hf⟩
  all_goals unfold Pmm.release
  · split_ifs <;> rfl
  · split_ifs <;> rfl
  · split_ifs
    · exact Function.update_of_ne (by omega) _ _
    · rfl

/-- Reserving frames that are there. -/
theorem reserveFrom {first n : ℕ} (hn : n ≤ p.totalFrames - first) : Counted p (p.reserveFrom first n) := by
  refine ⟨p.reserveFrom_totalFrames first n, p.reserveFrom_bitmapWords first n, fun g hg => ?_, fun {e} he => ?_⟩
  · rw [Pmm.reserveFrom_bitmap, decide_eq_false (by omega), Bool.or_false]
  · have hzero : ((List.range' first n).countP fun f => p.totalFrames ≤ f && !p.bitmap f) = 0 := by
      rw [List.countP_eq_zero]
      intro f hf
      have := List.mem_range'_1.1 hf
      simp only [Bool.and_eq_true, decide_eq_true_eq, not_and]
      omega
    have hreserve := he.reserveFrom first n
    rwa [hzero, Nat.add_zero] at hreserve

theorem reserveRange (p : Pmm) (start size : ℕ) : Counted p (pmmReserveRange p start size) := by
  unfold pmmReserveRange
  exact reserveFrom (by omega)

theorem freeFrame (p : Pmm) (f : ℕ) : Counted p (pmmFreeFrame p f) := by
  unfold pmmFreeFrame
  dsimp only
  split_ifs with hf
  · exact release hf
  · exact refl p

theorem allocFrame (p : Pmm) : Counted p (pmmAllocFrame p).2 := by
  unfold pmmAllocFrame
  split
  · exact refl p
  · next f hf =>
      split_ifs with ht
      · exact refl p
      · have hclear : p.bitmap f = false := by simpa using List.find?_some hf
        refine ⟨rfl, rfl, fun g hg => Function.update_of_ne (by omega) _ _, fun {e} he => ?_⟩
        have hreserve := he.reserve f
        rw [if_neg (by omega), Nat.add_zero] at hreserve
        simpa [Pmm.reserve, hclear] using hreserve

theorem freeRegion (p : Pmm) (r : MmapEntry) : Counted p (pmmFreeRegion p r) := by
  unfold pmmFreeRegion
  split_ifs
  · refine foldl fun q _ f _ => ?_
    split_ifs with hf
    · exact release hf
    · exact refl q
  · exact refl p

theorem freeAvailable (p : Pmm) (mbi : Multiboot) : Counted p (pmmFreeAvailable p mbi) := by
  unfold pmmFreeAvailable
  split
  · exact foldl fun q _ r _ => freeRegion q r
  · exact foldl fun q hq f hf => release (hq ▸ List.mem_range.1 hf)

theorem reserveModules (p : Pmm) (mbi : Multiboot) : Counted p (pmmReserveModules p mbi) := by
  unfold pmmReserveModules
  split
  · exact (foldl fun q _ m _ => reserveRange q _ _).trans (reserveRange _ _ _)
  · exact refl p

end Counted

/-! ### The count after `pmm_init` -/

/-- The clear bits behind the bitmap that `pmm_init` takes for frames of the first MiB and of the
kernel. -/
def strayFrames (memory : ℕ → Bool) (mbi : Multiboot) (kernelEnd : ℕ) : ℕ :=
  (List.range (max lowFrames (bitmapEndFrame kernelEnd (initWords mbi)))).countP fun f =>
    32 * initWords mbi ≤ f && !memory f

/-- The bits behind the bitmap that `pmm_init` takes for frames of the first MiB and of the kernel are
set. -/
def BehindSet (memory : ℕ → Bool) (mbi : Multiboot) (kernelEnd : ℕ) : Prop :=
  ∀ f, 32 * initWords mbi ≤ f → f < max lowFrames (bitmapEndFrame kernelEnd (initWords mbi)) → memory f = true

theorem strayFrames_eq_zero {memory : ℕ → Bool} {mbi : Multiboot} {kernelEnd : ℕ} :
    strayFrames memory mbi kernelEnd = 0 ↔ BehindSet memory mbi kernelEnd := by
  unfold strayFrames BehindSet
  rw [List.countP_eq_zero]
  simp only [List.mem_range, Bool.and_eq_true, decide_eq_true_eq, Bool.not_eq_true', not_and, Bool.not_eq_false]
  exact ⟨fun h f h₁ h₂ => h f h₂ h₁, fun h f h₂ h₁ => h f h₁ h₂⟩

theorem total_le_words (mbi : Multiboot) : memEnd mbi / pageSize ≤ 32 * initWords mbi := by
  unfold initWords
  omega

/-- The `memset` sets the bits of all frames. -/
theorem pmmMarked_excess (memory : ℕ → Bool) (mbi : Multiboot) : (pmmMarked memory mbi).Excess 0 := by
  have hall : ∀ f < memEnd mbi / pageSize, (pmmMarked memory mbi).bitmap f = true := by
    intro f hf
    have := total_le_words mbi
    simp only [pmmMarked, Bool.or_eq_true, decide_eq_true_eq]
    exact Or.inl (by omega)
  exact (Nat.count_iff_forall.2 hall).symm

/-- `pmm_init` with the two loops for the first MiB and for the kernel as one. -/
theorem pmmInitOn_eq (memory : ℕ → Bool) (mbi : Multiboot) (kernelEnd : ℕ) :
    pmmInitOn memory mbi kernelEnd = pmmReserveModules ((pmmFreeAvailable (pmmMarked memory mbi) mbi).reserveFrom 0
      (max lowFrames (bitmapEndFrame kernelEnd (initWords mbi)))) mbi := by
  have hsum : lowFrames + (bitmapEndFrame kernelEnd (initWords mbi) - lowFrames)
      = max lowFrames (bitmapEndFrame kernelEnd (initWords mbi)) := by omega
  rw [← hsum, ← Pmm.reserveFrom_add, pmmInitOn]

/-- **The count after `pmm_init`** is too high by the clear bits behind the bitmap that it has set. -/
theorem pmmInitOn_excess (memory : ℕ → Bool) (mbi : Multiboot) (kernelEnd : ℕ) :
    (pmmInitOn memory mbi kernelEnd).Excess (strayFrames memory mbi kernelEnd) := by
  have hfreed := Counted.freeAvailable (pmmMarked memory mbi) mbi
  rw [pmmInitOn_eq]
  refine (Counted.reserveModules _ mbi).excess ?_
  have hreserve := (hfreed.excess (pmmMarked_excess memory mbi)).reserveFrom 0
    (max lowFrames (bitmapEndFrame kernelEnd (initWords mbi)))
  have hstray : ∀ f, ((decide ((pmmFreeAvailable (pmmMarked memory mbi) mbi).totalFrames ≤ f) &&
      !(pmmFreeAvailable (pmmMarked memory mbi) mbi).bitmap f) = true ↔
        (decide (32 * initWords mbi ≤ f) && !memory f) = true) := by
    intro f
    have hle := total_le_words mbi
    have hbit := hfreed.behind f
    rw [hfreed.total]
    change memEnd mbi / pageSize ≤ f → _ at hbit
    by_cases hf : memEnd mbi / pageSize ≤ f
    · rw [hbit hf]
      simp only [pmmMarked, hf, decide_true, Bool.true_and, Bool.not_or, Bool.and_eq_true,
        Bool.not_eq_true', decide_eq_false_iff_not, not_lt, decide_eq_true_eq]
    · have hneg : ¬32 * initWords mbi ≤ f := by omega
      simp [pmmMarked, hf, hneg]
  rw [Nat.zero_add, List.countP_congr fun f _ => hstray f, ← List.range_eq_range'] at hreserve
  exact hreserve

theorem pmmInitOn_totalFrames (memory : ℕ → Bool) (mbi : Multiboot) (kernelEnd : ℕ) :
    (pmmInitOn memory mbi kernelEnd).totalFrames = memEnd mbi / pageSize := by
  rw [pmmInitOn_eq, (Counted.reserveModules _ mbi).total, Pmm.reserveFrom_totalFrames,
    (Counted.freeAvailable _ mbi).total]
  rfl

end LighthOS
