/-
# The frames that are free after `pmm_init`

`pmm_init` sets every bit of the bitmap, clears the frames of the available regions, and sets the
bits of the first MiB, of the kernel image with the bitmap, and of the modules again.  A frame should
be free in the end when it lies in an available region and meets none of the rest (`FreeFrame`), and
`pmm_get_free_count` should be the number of these frames.

Each part of `pmm_init` frees or takes a set of frames (`Frees`, `Takes`).  `pmm_reserve_range` rounds
outwards, so that a module without a byte still takes the frame that its address lies in: this is the
one frame that is not free although it should be (`pmmInitOn_free_iff`).  The count is right unless a
clear bit behind the bitmap was taken for a frame of the kernel.
-/

import LighthOS.Mm.PmmCount
import Mathlib.Data.Set.Card

namespace LighthOS

/-- `pmm_get_free_count`. -/
def pmmGetFreeCount (p : Pmm) : ℕ := (p.totalFrames + 2 ^ 32 - p.usedFrames) % 2 ^ 32

/-! ### Sets of frames that are freed or taken -/

/-- From `p` to `p'` the frames of `S` are freed. -/
structure Frees (S : ℕ → Prop) (p p' : Pmm) : Prop extends Counted p p' where
  bits : ∀ g, p'.bitmap g = true ↔ p.bitmap g = true ∧ ¬(g < p.totalFrames ∧ S g)

/-- From `p` to `p'` the frames of `S` are taken. -/
structure Takes (S : ℕ → Prop) (p p' : Pmm) : Prop extends Counted p p' where
  bits : ∀ g, p'.bitmap g = true ↔ p.bitmap g = true ∨ g < p.totalFrames ∧ S g

theorem Frees.congr {S T : ℕ → Prop} {p p' : Pmm} (h : Frees S p p') (hST : ∀ g, S g ↔ T g) :
    Frees T p p' :=
  (funext fun g => propext (hST g) : S = T) ▸ h

/-- A loop that frees the frames of `S a` in the round for `a`. -/
theorem Frees.foldl {α : Type} {S : α → ℕ → Prop} {f : Pmm → α → Pmm} {l : List α}
    (h : ∀ p, ∀ a ∈ l, Frees (S a) p (f p a)) (p : Pmm) : Frees (fun g => ∃ a ∈ l, S a g) p (l.foldl f p) := by
  induction l generalizing p with
  | nil => exact ⟨Counted.refl p, by simp⟩
  | cons a l ih =>
      have hround := h p a List.mem_cons_self
      have hrest := ih (fun p b hb => h p b (List.mem_cons_of_mem a hb)) (f p a)
      refine ⟨hround.toCounted.trans hrest.toCounted, fun g => ?_⟩
      rw [List.foldl_cons, hrest.bits, hround.bits, hround.total, List.exists_mem_cons_iff, and_assoc,
        ← not_or, ← and_or_left]

/-- Two sets of frames, one after the other. -/
theorem Takes.trans {S T : ℕ → Prop} {p p' p'' : Pmm} (h : Takes S p p') (h' : Takes T p' p'') :
    Takes (fun g => S g ∨ T g) p p'' := by
  refine ⟨h.toCounted.trans h'.toCounted, fun g => ?_⟩
  rw [h'.bits, h.bits, h.total, or_assoc, ← and_or_left]

/-- A loop that takes the frames of `S a` in the round for `a`. -/
theorem Takes.foldl {α : Type} {S : α → ℕ → Prop} {f : Pmm → α → Pmm} {l : List α}
    (h : ∀ p, ∀ a ∈ l, Takes (S a) p (f p a)) (p : Pmm) : Takes (fun g => ∃ a ∈ l, S a g) p (l.foldl f p) := by
  induction l generalizing p with
  | nil => exact ⟨Counted.refl p, by simp⟩
  | cons a l ih =>
      have hround := h p a List.mem_cons_self
      have hrest := ih (fun p b hb => h p b (List.mem_cons_of_mem a hb)) (f p a)
      refine ⟨(hround.trans hrest).toCounted, fun g => ?_⟩
      rw [List.foldl_cons, (hround.trans hrest).bits, List.exists_mem_cons_iff]

/-- One round of the loop over an available region. -/
theorem Frees.release (p : Pmm) (f : ℕ) :
    Frees (· = f) p (if f < p.totalFrames then p.release f else p) := by
  split_ifs with hf
  · refine ⟨Counted.release hf, fun g => ?_⟩
    unfold Pmm.release
    by_cases hg : g = f
    · subst hg
      split_ifs with hset <;> simp [hf, hset]
    · split_ifs <;> simp [hg]
  · refine ⟨Counted.refl p, fun g => ⟨fun hg => ⟨hg, ?_⟩, And.left⟩⟩
    rintro ⟨hlt, rfl⟩
    exact hf hlt

/-- The frame `f` lies in the available region `r`. -/
def MmapEntry.Holds (r : MmapEntry) (f : ℕ) : Prop :=
  r.available = true ∧ r.addr ≤ f * pageSize ∧ (f + 1) * pageSize ≤ r.addr + r.len

/-- The loop over an available region frees the frames that lie in it. -/
theorem Frees.region {r : MmapEntry} (hr : r.addr + r.len < 2 ^ 44) (p : Pmm) :
    Frees r.Holds p (pmmFreeRegion p r) := by
  unfold pmmFreeRegion
  split_ifs with ha
  · have hstart : (r.addr + pageSize - 1) % 2 ^ 64 = r.addr + pageSize - 1 :=
      Nat.mod_eq_of_lt (by unfold pageSize; omega)
    have hstop : (r.addr + r.len) % 2 ^ 64 = r.addr + r.len := Nat.mod_eq_of_lt (by omega)
    simp only [hstart, hstop]
    refine (Frees.foldl (S := fun f g => g = f) (fun p f hf => ?_) p).congr fun g => ?_
    · -- below `2 ^ 44` the number of a frame fits in 32 bits
      have hf32 : f % 2 ^ 32 = f := by
        have := (List.mem_range'_1.1 hf).2
        unfold pageSize at this
        exact Nat.mod_eq_of_lt (by omega)
      rw [hf32]
      exact Frees.release p f
    · simp only [exists_eq_right', List.mem_range'_1, MmapEntry.Holds, ha, true_and, pageSize]
      omega
  · exact ⟨Counted.refl p, fun g => by simp [MmapEntry.Holds, ha]⟩

/-- The frames that `pmm_reserve_range` takes for the bytes from `a` to `b`, rounded outwards. -/
def Rounded (a b f : ℕ) : Prop := a / pageSize ≤ f ∧ f < (b + pageSize - 1) / pageSize

theorem Takes.reserveRange (p : Pmm) (start size : ℕ) (h : start + size < 2 ^ 43) :
    Takes (Rounded start (start + size)) p (pmmReserveRange p start size) := by
  refine ⟨Counted.reserveRange p start size, fun g => ?_⟩
  have hfirst : start / pageSize % 2 ^ 32 = start / pageSize := Nat.mod_eq_of_lt (by unfold pageSize; omega)
  have hlast : (start + size + pageSize - 1) % 2 ^ 64 / pageSize % 2 ^ 32
      = (start + size + pageSize - 1) / pageSize := by
    unfold pageSize
    omega
  simp only [pmmReserveRange, hfirst, hlast, Pmm.reserveFrom_bitmap, Bool.or_eq_true, decide_eq_true_eq, Rounded]
  exact or_congr_right (by omega)

/-! ### The frames that should be free -/

/-- The modules, none where flag bit 3 is clear. -/
def Multiboot.modules (mbi : Multiboot) : List (ℕ × ℕ) := mbi.mods.getD []

/-- Where the bitmap starts: the end of the kernel image, rounded up to a page. -/
def bitmapPhys (kernelEnd : ℕ) : ℕ := (kernelEnd + pageSize - 1) / pageSize * pageSize

/-- Some byte from `a` up to `b` lies in the frame `f`. -/
def Meets (f a b : ℕ) : Prop := ∃ x, a ≤ x ∧ x < b ∧ x / pageSize = f

/-- The frame lies in an available region and meets neither the first MiB, nor the kernel image and the
bitmap, nor a module or the list of the modules. -/
structure FreeFrame (mbi : Multiboot) (kernelEnd f : ℕ) : Prop where
  available : ∃ r ∈ mbi.mmap.getD [], r.Holds f
  low : ¬Meets f 0 0x100000
  image : ¬Meets f 0x100000 kernelEnd
  bitmap : ¬Meets f (bitmapPhys kernelEnd) (bitmapPhys kernelEnd + initWords mbi * 4)
  modules : ∀ m ∈ mbi.modules, ¬Meets f m.1 m.2
  table : ¬Meets f mbi.modsAddr (mbi.modsAddr + mbi.modules.length * 16)

/-- A memory map whose regions do not wrap around and end below 16 TiB, with modules that do not end
before they start; available memory reaches past the end of the bitmap. -/
structure Multiboot.Boots (mbi : Multiboot) (kernelEnd : ℕ) : Prop where
  mmap : mbi.mmap.isSome
  small : ∀ r ∈ mbi.mmap.getD [], r.addr + r.len < 2 ^ 44
  modules : ∀ m ∈ mbi.modules, m.1 ≤ m.2 ∧ m.2 < 2 ^ 32
  table : mbi.modsAddr < 2 ^ 32 ∧ mbi.modules.length < 2 ^ 32
  reaches : bitmapPhys kernelEnd + initWords mbi * 4 < memEnd mbi

/-- The bytes of a range that is not empty meet the frames of the range rounded outwards. -/
theorem meets_iff {f a b : ℕ} : Meets f a b ↔ a < b ∧ Rounded a b f := by
  unfold Meets Rounded pageSize
  constructor
  · rintro ⟨x, h₁, h₂, rfl⟩
    exact ⟨by omega, by omega, by omega⟩
  · rintro ⟨hab, h₁, h₂⟩
    exact ⟨max a (f * 4096), by omega, by omega, by omega⟩

/-- The frames of the first MiB, the kernel image and the bitmap are those below `bitmap_end_frame`. -/
theorem kernelFrames_iff (mbi : Multiboot) (kernelEnd f : ℕ) :
    f < max lowFrames (bitmapEndFrame kernelEnd (initWords mbi)) ↔
      Meets f 0 0x100000 ∨ Meets f 0x100000 kernelEnd ∨
        Meets f (bitmapPhys kernelEnd) (bitmapPhys kernelEnd + initWords mbi * 4) := by
  simp only [meets_iff, Rounded, bitmapEndFrame, bitmapPhys, lowFrames, pageSize]
  generalize initWords mbi = words
  omega

/-- Rounding outwards adds a frame to a range only where the range has no byte. -/
theorem rounded_iff {a b f : ℕ} (h : a ≤ b) :
    Rounded a b f ↔ Meets f a b ∨ a = b ∧ a % pageSize ≠ 0 ∧ f = a / pageSize := by
  rw [meets_iff]
  unfold Rounded pageSize
  omega

/-- The frames that the end of `pmm_init` takes. -/
def ModuleFrame (mbi : Multiboot) (f : ℕ) : Prop :=
  (∃ m ∈ mbi.modules, Rounded m.1 m.2 f) ∨
    mbi.modules ≠ [] ∧ Rounded mbi.modsAddr (mbi.modsAddr + mbi.modules.length * 16) f

variable {mbi : Multiboot} {kernelEnd : ℕ}

/-- The modules and their list are taken. -/
theorem Takes.reserveModules (h : mbi.Boots kernelEnd) (p : Pmm) :
    Takes (ModuleFrame mbi) p (pmmReserveModules p mbi) := by
  have hround : ∀ p, ∀ m ∈ mbi.modules, Takes (Rounded m.1 m.2) p (pmmReserveModule p m) := by
    intro p m hm
    obtain ⟨hle, hlt⟩ := h.modules m hm
    have hsize : (m.2 + 2 ^ 64 - m.1) % 2 ^ 64 = m.2 - m.1 := by omega
    rw [pmmReserveModule, hsize]
    have htakes := Takes.reserveRange p m.1 (m.2 - m.1) (by omega)
    rwa [Nat.add_sub_of_le hle] at htakes
  have htable := h.table
  unfold Multiboot.modules at hround htable
  unfold pmmReserveModules ModuleFrame Multiboot.modules
  split
  · next m l hmods =>
      simp only [hmods, Option.getD_some] at hround htable ⊢
      have hboth := (Takes.foldl hround p).trans (Takes.reserveRange _ mbi.modsAddr ((m :: l).length * 16) (by omega))
      refine ⟨hboth.toCounted, fun g => ?_⟩
      rw [hboth.bits]
      simp
  · next hmods =>
      have hnil : mbi.mods.getD [] = [] := by
        cases hm : mbi.mods with
        | none => rfl
        | some l =>
            cases l with
            | nil => rfl
            | cons m l => exact absurd hm (hmods m l)
      simp only [hnil]
      exact ⟨Counted.refl p, fun g => by simp⟩

theorem Frees.available (h : mbi.Boots kernelEnd) (p : Pmm) :
    Frees (fun f => ∃ r ∈ mbi.mmap.getD [], r.Holds f) p (pmmFreeAvailable p mbi) := by
  obtain ⟨l, hl⟩ := Option.isSome_iff_exists.1 h.mmap
  have hsmall := h.small
  rw [hl, Option.getD_some] at hsmall
  simp only [pmmFreeAvailable, hl, Option.getD_some]
  exact Frees.foldl (fun p r hr => Frees.region (hsmall r hr) p) p

/-- The frames that the end of `pmm_init` leaves. -/
theorem not_moduleFrame_iff (h : mbi.Boots kernelEnd) (f : ℕ) :
    ¬ModuleFrame mbi f ↔ (∀ m ∈ mbi.modules, ¬Meets f m.1 m.2) ∧
      ¬Meets f mbi.modsAddr (mbi.modsAddr + mbi.modules.length * 16) ∧
      ∀ m ∈ mbi.modules, m.1 = m.2 → m.1 % pageSize ≠ 0 → f ≠ m.1 / pageSize := by
  have hmodule : ∀ m ∈ mbi.modules, (¬Rounded m.1 m.2 f ↔
      ¬Meets f m.1 m.2 ∧ (m.1 = m.2 → m.1 % pageSize ≠ 0 → f ≠ m.1 / pageSize)) := by
    intro m hm
    rw [rounded_iff (h.modules m hm).1]
    tauto
  have htable : (mbi.modules ≠ [] ∧ Rounded mbi.modsAddr (mbi.modsAddr + mbi.modules.length * 16) f) ↔
      Meets f mbi.modsAddr (mbi.modsAddr + mbi.modules.length * 16) := by
    rw [meets_iff, ← List.length_pos_iff]
    exact and_congr_left' (by omega)
  unfold ModuleFrame
  rw [htable, not_or]
  simp only [not_exists, not_and]
  constructor
  · rintro ⟨hm, ht⟩
    exact ⟨fun m hmem => ((hmodule m hmem).1 (hm m hmem)).1, ht, fun m hmem => ((hmodule m hmem).1 (hm m hmem)).2⟩
  · rintro ⟨hm, ht, hempty⟩
    exact ⟨fun m hmem => (hmodule m hmem).2 ⟨hm m hmem, hempty m hmem⟩, ht⟩

/-- `FreeFrame` by the frames that the parts of `pmm_init` free and take. -/
theorem freeFrame_iff (mbi : Multiboot) (kernelEnd f : ℕ) :
    FreeFrame mbi kernelEnd f ↔ (∃ r ∈ mbi.mmap.getD [], r.Holds f) ∧
      ¬f < max lowFrames (bitmapEndFrame kernelEnd (initWords mbi)) ∧
      (∀ m ∈ mbi.modules, ¬Meets f m.1 m.2) ∧
      ¬Meets f mbi.modsAddr (mbi.modsAddr + mbi.modules.length * 16) := by
  rw [kernelFrames_iff, not_or, not_or]
  constructor
  · rintro ⟨h₁, h₂, h₃, h₄, h₅, h₆⟩
    exact ⟨h₁, ⟨h₂, h₃, h₄⟩, h₅, h₆⟩
  · rintro ⟨h₁, ⟨h₂, h₃, h₄⟩, h₅, h₆⟩
    exact ⟨h₁, h₂, h₃, h₄, h₅, h₆⟩

/-- **The frames that are free after `pmm_init`** are those that should be, without the frames that a module
without a byte starts inside of. -/
theorem pmmInitOn_free_iff (h : mbi.Boots kernelEnd) (memory : ℕ → Bool) {f : ℕ} (hf : f < memEnd mbi / pageSize) :
    (pmmInitOn memory mbi kernelEnd).bitmap f = false ↔ FreeFrame mbi kernelEnd f ∧
      ∀ m ∈ mbi.modules, m.1 = m.2 → m.1 % pageSize ≠ 0 → f ≠ m.1 / pageSize := by
  have hmarked : (pmmMarked memory mbi).bitmap f = true := by
    have := total_le_words mbi
    simp only [pmmMarked, Bool.or_eq_true, decide_eq_true_eq]
    exact Or.inl (by omega)
  have hfreed := Frees.available h (pmmMarked memory mbi)
  rw [pmmInitOn_eq, ← Bool.not_eq_true, (Takes.reserveModules h _).bits, Pmm.reserveFrom_bitmap,
    Pmm.reserveFrom_totalFrames, hfreed.total, Bool.or_eq_true, hfreed.bits, hmarked, not_or, not_or]
  have htotal : f < (pmmMarked memory mbi).totalFrames := hf
  simp only [htotal, true_and, not_not, decide_eq_true_eq, Nat.zero_le, Nat.zero_add, not_moduleFrame_iff h,
    freeFrame_iff, and_assoc]

/-! ### `pmm_init` -/

/-- The frames that should be free are free, and `pmm_get_free_count` is their number. -/
def FreeExactly (p : Pmm) (mbi : Multiboot) (kernelEnd : ℕ) : Prop :=
  (∀ f < p.totalFrames, p.bitmap f = false ↔ FreeFrame mbi kernelEnd f) ∧
    pmmGetFreeCount p = {f | f < p.totalFrames ∧ FreeFrame mbi kernelEnd f}.ncard

/-- No module without a byte starts inside of a frame that should be free. -/
def NoEmptyModule (mbi : Multiboot) (kernelEnd : ℕ) : Prop :=
  ∀ m ∈ mbi.modules, m.1 = m.2 → m.1 % pageSize ≠ 0 → m.1 / pageSize < memEnd mbi / pageSize →
    ¬FreeFrame mbi kernelEnd (m.1 / pageSize)

/-- The clear bits below `n` are those that are not set. -/
theorem ncard_clear (b : ℕ → Bool) (n : ℕ) :
    {f | f < n ∧ b f = false}.ncard + Nat.count (fun f => b f = true) n = n := by
  have hset : {f | f < n ∧ b f = false} = ((Finset.range n).filter fun f => ¬b f = true : Finset ℕ) := by
    ext f
    simp
  have hsplit := Finset.card_filter_add_card_filter_not (s := Finset.range n) (fun f => b f = true)
  rw [Finset.card_range] at hsplit
  rw [hset, Set.ncard_coe_finset, Nat.count_eq_card_filter_range]
  omega

/-- With an excess that fits in 32 bits, `pmm_get_free_count` is the number of clear bits exactly where there
is none. -/
theorem pmmGetFreeCount_eq_iff {p : Pmm} {e : ℕ} (h : p.Excess e) (hp : p.totalFrames < 2 ^ 32) (he : e < 2 ^ 32) :
    pmmGetFreeCount p = {f | f < p.totalFrames ∧ p.bitmap f = false}.ncard ↔ e = 0 := by
  have hclear := ncard_clear p.bitmap p.totalFrames
  unfold pmmGetFreeCount
  unfold Pmm.Excess at h
  omega

/-- The memory map bounds what `pmm_init` takes for frames. -/
theorem Multiboot.Boots.stray_lt (h : mbi.Boots kernelEnd)
    (memory : ℕ → Bool) : memEnd mbi / pageSize < 2 ^ 32 ∧ strayFrames memory mbi kernelEnd < 2 ^ 32 := by
  have hend : memEnd mbi ≤ 0x100000000 := Nat.min_le_right _ _
  have hstray : strayFrames memory mbi kernelEnd ≤ max lowFrames (bitmapEndFrame kernelEnd (initWords mbi)) := by
    have hcount := List.countP_le_length (p := fun f => decide (32 * initWords mbi ≤ f) && !memory f)
      (l := List.range (max lowFrames (bitmapEndFrame kernelEnd (initWords mbi))))
    rwa [List.length_range] at hcount
  have hframe : bitmapEndFrame kernelEnd (initWords mbi) ≤ memEnd mbi / pageSize + 1 := by
    have hreaches := h.reaches
    unfold bitmapPhys at hreaches
    unfold bitmapEndFrame
    simp only [pageSize] at hreaches ⊢
    omega
  unfold pageSize at hframe ⊢
  unfold lowFrames at hstray
  omega

/-- **`pmm_init` computes the free frames** of every memory map exactly where no module without a byte starts
inside of a frame that should be free, and the bits behind the bitmap that it takes for frames of the kernel
are set. -/
theorem pmmInit_exact_iff (memory : ℕ → Bool) (mbi : Multiboot) (kernelEnd : ℕ) (h : mbi.Boots kernelEnd) :
    FreeExactly (pmmInitOn memory mbi kernelEnd) mbi kernelEnd ↔
      BehindSet memory mbi kernelEnd ∧ NoEmptyModule mbi kernelEnd := by
  have hfree := fun f => pmmInitOn_free_iff h memory (f := f)
  have hcount := pmmGetFreeCount_eq_iff (pmmInitOn_excess memory mbi kernelEnd)
    ((pmmInitOn_totalFrames memory mbi kernelEnd).trans_lt (h.stray_lt memory).1) (h.stray_lt memory).2
  rw [strayFrames_eq_zero] at hcount
  have hmodule : (∀ f < (pmmInitOn memory mbi kernelEnd).totalFrames,
      (pmmInitOn memory mbi kernelEnd).bitmap f = false ↔ FreeFrame mbi kernelEnd f) ↔
        NoEmptyModule mbi kernelEnd := by
    rw [pmmInitOn_totalFrames]
    constructor
    · intro hset m hm heq hin hlt hff
      exact ((hfree _ hlt).1 ((hset _ hlt).2 hff)).2 m hm heq hin rfl
    · intro hnone f hf
      rw [hfree f hf, and_iff_left_iff_imp]
      rintro hff m hm heq hin rfl
      exact hnone m hm heq hin hf hff
  unfold FreeExactly
  rw [and_comm (a := BehindSet memory mbi kernelEnd), ← hmodule, ← hcount]
  refine and_congr_right fun hset => ?_
  have hsame : {f | f < (pmmInitOn memory mbi kernelEnd).totalFrames ∧ FreeFrame mbi kernelEnd f}
      = {f | f < (pmmInitOn memory mbi kernelEnd).totalFrames ∧
          (pmmInitOn memory mbi kernelEnd).bitmap f = false} :=
    Set.ext fun f => and_congr_right fun hf => (hset f hf).symm
  rw [hsame]

/-- A machine whose memory is the 16 KiB from the first MiB on, with the given modules. -/
def smallMultiboot (mods : List (ℕ × ℕ)) : Multiboot := ⟨some [⟨0x100000, 0x4000, true⟩], 0, some mods, 0x9000⟩

theorem smallMultiboot_boots {mods : List (ℕ × ℕ)} (hmods : ∀ m ∈ mods, m.1 ≤ m.2 ∧ m.2 < 2 ^ 32)
    (hlen : mods.length < 2 ^ 32) : (smallMultiboot mods).Boots 0x101000 := by
  have hreaches : bitmapPhys 0x101000 + initWords (smallMultiboot []) * 4 < memEnd (smallMultiboot []) := by decide
  exact ⟨rfl, by simp [smallMultiboot], hmods, ⟨(by decide : 0x9000 < 2 ^ 32), hlen⟩, hreaches⟩

/-- The hypotheses of `pmmInit_exact_iff` are satisfiable: without modules the frames are as they should
be. -/
theorem pmmInit_exact_small : (smallMultiboot []).Boots 0x101000 ∧
    FreeExactly (pmmInitOn (fun _ => false) (smallMultiboot []) 0x101000) (smallMultiboot []) 0x101000 := by
  have hboots : (smallMultiboot []).Boots 0x101000 := smallMultiboot_boots (by simp) (by decide)
  refine ⟨hboots, (pmmInit_exact_iff _ _ _ hboots).2 ⟨?_, by simp [NoEmptyModule, Multiboot.modules, smallMultiboot]⟩⟩
  intro f h₁ h₂
  have hwords : initWords (smallMultiboot []) = 9 := by decide
  rw [hwords] at h₁ h₂
  have hmax : max lowFrames (bitmapEndFrame 0x101000 9) = 258 := by decide
  omega

/-- A machine whose memory ends inside of the page behind the kernel image of 1 MiB, in which the bitmap of
its 512 frames lies. -/
def tightMultiboot : Multiboot := ⟨some [⟨0x100000, 0x100800, true⟩], 0, none, 0⟩

theorem tightMultiboot_boots : tightMultiboot.Boots 0x200000 :=
  ⟨rfl, by simp [tightMultiboot], by simp [Multiboot.modules, tightMultiboot],
    ⟨by decide, by decide⟩, by decide⟩

theorem tightMultiboot_none {f : ℕ} (hf : f < memEnd tightMultiboot / pageSize) :
    ¬FreeFrame tightMultiboot 0x200000 f := by
  intro hfree
  have hlow := ((freeFrame_iff _ _ _).1 hfree).2.1
  have hmax : max lowFrames (bitmapEndFrame 0x200000 (initWords tightMultiboot)) = 513 := by decide
  have htotal : memEnd tightMultiboot / pageSize = 512 := by decide
  omega

/-- Where memory ends inside of the page of the bitmap, `pmm_init` takes the bit behind the bitmap for the
bit of a frame. -/
theorem tightMultiboot_used : (pmmInitOn (fun _ => false) tightMultiboot 0x200000).usedFrames = 513 ∧
    Nat.count (fun f => (pmmInitOn (fun _ => false) tightMultiboot 0x200000).bitmap f = true)
      (pmmInitOn (fun _ => false) tightMultiboot 0x200000).totalFrames = 512 := by
  have htotal : memEnd tightMultiboot / pageSize = 512 := by decide
  have hcount : Nat.count (fun f => (pmmInitOn (fun _ => false) tightMultiboot 0x200000).bitmap f = true)
      (pmmInitOn (fun _ => false) tightMultiboot 0x200000).totalFrames = 512 := by
    rw [pmmInitOn_totalFrames, htotal, Nat.count_iff_forall]
    intro f hf
    by_contra hclear
    have hlt : f < memEnd tightMultiboot / pageSize := htotal ▸ hf
    exact tightMultiboot_none hlt
      ((pmmInitOn_free_iff tightMultiboot_boots _ hlt).1 (Bool.not_eq_true _ ▸ hclear)).1
  have hstray : strayFrames (fun _ => false) tightMultiboot 0x200000 = 1 := by decide +kernel
  have hexcess := pmmInitOn_excess (fun _ => false) tightMultiboot 0x200000
  unfold Pmm.Excess at hexcess
  exact ⟨by rw [hexcess, hcount, hstray], hcount⟩

/-- A module without a byte in the middle of a page takes the frame of this page. -/
theorem smallMultiboot_module : FreeFrame (smallMultiboot [(0x102800, 0x102800)]) 0x101000 258 ∧
    (pmmInitOn (fun _ => true) (smallMultiboot [(0x102800, 0x102800)]) 0x101000).bitmap 258 = true := by
  have hlt : 258 < memEnd (smallMultiboot [(0x102800, 0x102800)]) / pageSize := by decide
  refine ⟨?_, ?_⟩
  · rw [freeFrame_iff]
    simp only [meets_iff, Rounded]
    refine ⟨⟨_, List.mem_singleton_self _, rfl, by decide, by decide⟩, by decide, ?_, by decide⟩
    intro m hm
    rw [List.mem_singleton.1 hm]
    decide
  · by_contra hclear
    have hfree := (pmmInitOn_free_iff (smallMultiboot_boots (by simp) (by decide)) (fun _ => true) hlt).1
      (Bool.not_eq_true _ ▸ hclear)
    exact hfree.2 _ (List.mem_singleton_self _) rfl (by decide) (by decide)

/-- **`pmm_init` can miscount**: on a machine whose memory ends inside of the page of the bitmap there is no
free frame, and `pmm_get_free_count` is `2 ^ 32 - 1`.  And a frame that should be free can be taken, by a
module without a byte. -/
theorem pmmInit_inexact :
    (∃ memory mbi kernelEnd, mbi.Boots kernelEnd ∧ (∀ f < memEnd mbi / pageSize, ¬FreeFrame mbi kernelEnd f) ∧
      pmmGetFreeCount (pmmInitOn memory mbi kernelEnd) = 2 ^ 32 - 1) ∧
    ∃ mbi kernelEnd f, mbi.Boots kernelEnd ∧ FreeFrame mbi kernelEnd f ∧
      (pmmInitOn (fun _ => true) mbi kernelEnd).bitmap f = true :=
  ⟨⟨fun _ => false, tightMultiboot, 0x200000, tightMultiboot_boots, fun _ => tightMultiboot_none, by
      rw [pmmGetFreeCount, pmmInitOn_totalFrames, tightMultiboot_used.1]
      decide⟩,
    smallMultiboot [(0x102800, 0x102800)], 0x101000, 258, smallMultiboot_boots (by simp) (by decide),
    smallMultiboot_module⟩

end LighthOS
