/-
# The frame allocator over whole runs

`bitmap_set`, `bitmap_clear` and `bitmap_test` of `src/mm/pmm.c` work on the words of the bitmap, and
`pmm_alloc_frame` skips the words without a clear bit before it looks at single bits.  `bitmapWord` is a
word of the bitmap; the three helpers do to it what the model of the bits says (`bitmapWord_set`,
`bitmapWord_clear`, `bitmapTest_eq`), and the two nested loops find the lowest clear bit
(`scanWords_eq`).

A run calls `pmm_reserve_range`, `pmm_alloc_frame` and `pmm_free_frame` with any arguments after
`pmm_init`.  Every call is counted (`Counted`), so that the count is right in every state of a run when it is right
in the first one: when `pmm_init` has not taken a clear bit behind the bitmap for a frame.
-/

import LighthOS.Mm.PmmInit
import LighthOS.Lib.System
import Mathlib.Data.Nat.Bits
import Mathlib.Order.Bounds.Basic

namespace LighthOS

/-! ### The words of the bitmap -/

/-- The number with the `n` bits of `b` from `off` on. -/
def bitsFrom (b : ℕ → Bool) : ℕ → ℕ → ℕ
  | _, 0 => 0
  | off, n + 1 => Nat.bit (b off) (bitsFrom b (off + 1) n)

/-- `bitmap[i]`. -/
def bitmapWord (b : ℕ → Bool) (i : ℕ) : BitVec 32 := BitVec.ofNat 32 (bitsFrom b (i * 32) 32)

theorem testBit_bitsFrom (b : ℕ → Bool) (off n k : ℕ) :
    (bitsFrom b off n).testBit k = (decide (k < n) && b (off + k)) := by
  induction n generalizing off k with
  | zero => simp [bitsFrom]
  | succ n ih =>
      cases k with
      | zero => simp [bitsFrom]
      | succ k =>
          rw [bitsFrom, Nat.testBit_bit_succ, ih, show off + 1 + k = off + (k + 1) by omega]
          simp

theorem getLsbD_bitmapWord (b : ℕ → Bool) (i : ℕ) {k : ℕ} (hk : k < 32) :
    (bitmapWord b i).getLsbD k = b (i * 32 + k) := by
  rw [bitmapWord, BitVec.getLsbD_ofNat, testBit_bitsFrom]
  simp [hk]

/-- The mask `1u << bit`. -/
theorem getLsbD_mask {bit k : ℕ} (hk : k < 32) : (1#32 <<< bit).getLsbD k = decide (k = bit) := by
  rw [BitVec.getLsbD_shiftLeft, BitVec.getLsbD_one]
  by_cases hlt : k < bit
  · simp [hlt, Nat.ne_of_lt hlt]
  · have hsub : k - bit = 0 ↔ k = bit := by omega
    simp [hk, hlt, hsub]

theorem and_mask_eq_zero (w : BitVec 32) {bit : ℕ} (hbit : bit < 32) :
    w &&& 1#32 <<< bit = 0#32 ↔ w.getLsbD bit = false := by
  constructor
  · intro h
    have hget := congrArg (fun v : BitVec 32 => v.getLsbD bit) h
    simpa [getLsbD_mask hbit] using hget
  · intro h
    apply BitVec.eq_of_getLsbD_eq
    intro k hk
    rw [BitVec.getLsbD_and, getLsbD_mask hk, BitVec.getLsbD_zero]
    by_cases heq : k = bit
    · rw [heq, h, Bool.false_and]
    · simp [heq]

/-- `bitmap_test` reads the bit of the frame. -/
theorem bitmapTest_eq (b : ℕ → Bool) (frame : ℕ) :
    ((bitmapWord b (frame / 32) >>> (frame % 32)) &&& 1#32 ≠ 0#32) ↔ b frame = true := by
  have hmask := and_mask_eq_zero (bitmapWord b (frame / 32) >>> (frame % 32)) (show 0 < 32 by decide)
  rw [BitVec.shiftLeft_zero, BitVec.getLsbD_ushiftRight, Nat.add_zero,
    getLsbD_bitmapWord b _ (Nat.mod_lt _ (by decide)), Nat.div_add_mod'] at hmask
  rw [ne_eq, hmask, Bool.not_eq_false]

/-- `bitmap_set` sets the bit of the frame. -/
theorem bitmapWord_set (b : ℕ → Bool) (frame : ℕ) :
    bitmapWord (Function.update b frame true) = Function.update (bitmapWord b) (frame / 32)
      (bitmapWord b (frame / 32) ||| 1#32 <<< (frame % 32)) := by
  funext i
  apply BitVec.eq_of_getLsbD_eq
  intro k hk
  rw [getLsbD_bitmapWord _ _ hk]
  by_cases hi : i = frame / 32
  · have hframe : i * 32 + k = frame ↔ k = frame % 32 := by omega
    subst hi
    rw [Function.update_self, BitVec.getLsbD_or, getLsbD_bitmapWord _ _ hk, getLsbD_mask hk,
      Function.update_apply]
    simp only [hframe]
    split_ifs with heq <;> simp [heq]
  · rw [Function.update_of_ne hi, getLsbD_bitmapWord _ _ hk, Function.update_of_ne (by omega)]

/-- `bitmap_clear` clears the bit of the frame. -/
theorem bitmapWord_clear (b : ℕ → Bool) (frame : ℕ) :
    bitmapWord (Function.update b frame false) = Function.update (bitmapWord b) (frame / 32)
      (bitmapWord b (frame / 32) &&& ~~~(1#32 <<< (frame % 32))) := by
  funext i
  apply BitVec.eq_of_getLsbD_eq
  intro k hk
  rw [getLsbD_bitmapWord _ _ hk]
  by_cases hi : i = frame / 32
  · have hframe : i * 32 + k = frame ↔ k = frame % 32 := by omega
    subst hi
    rw [Function.update_self, BitVec.getLsbD_and, BitVec.getLsbD_not, getLsbD_bitmapWord _ _ hk,
      getLsbD_mask hk, Function.update_apply]
    simp only [hframe]
    split_ifs with heq <;> simp [heq, hk]
  · rw [Function.update_of_ne hi, getLsbD_bitmapWord _ _ hk, Function.update_of_ne (by omega)]

/-- The inner loop of `pmm_alloc_frame`, which a word without a clear bit skips: the number of the clear
bit. -/
def scanWord (b : ℕ → Bool) (i : ℕ) : Option ℕ :=
  if bitmapWord b i = 0xFFFFFFFF#32 then none
  else (List.range 32).findSome? fun bit =>
    if bitmapWord b i &&& 1#32 <<< bit = 0#32 then some (i * 32 + bit) else none

/-- The two loops of `pmm_alloc_frame` over the first `n` words. -/
def scanWords (b : ℕ → Bool) (n : ℕ) : Option ℕ := (List.range n).findSome? (scanWord b)

/-- A word that is skipped has no clear bit. -/
theorem bitmapWord_full {b : ℕ → Bool} {i k : ℕ} (h : bitmapWord b i = 0xFFFFFFFF#32) (hk : k < 32) :
    b (i * 32 + k) = true := by
  rw [← getLsbD_bitmapWord b i hk, h, show 0xFFFFFFFF#32 = BitVec.allOnes 32 from rfl, BitVec.getLsbD_allOnes]
  exact decide_eq_true hk

/-- The inner loop finds the lowest clear bit of its word. -/
theorem scanWord_eq (b : ℕ → Bool) (i : ℕ) :
    scanWord b i = ((List.range 32).map (i * 32 + ·)).find? fun f => !b f := by
  have hbits : ∀ l : List ℕ, (∀ bit ∈ l, bit < 32) →
      (l.findSome? fun bit => if bitmapWord b i &&& 1#32 <<< bit = 0#32 then some (i * 32 + bit) else none)
        = (l.map (i * 32 + ·)).find? fun f => !b f := by
    intro l hl
    induction l with
    | nil => rfl
    | cons bit l ih =>
        have hbit := hl bit List.mem_cons_self
        rw [List.findSome?_cons, List.map_cons, List.find?_cons, ih fun k hk => hl k (List.mem_cons_of_mem bit hk)]
        simp only [and_mask_eq_zero _ hbit, getLsbD_bitmapWord b i hbit]
        cases b (i * 32 + bit) <;> rfl
  unfold scanWord
  split_ifs with hfull
  · symm
    rw [List.find?_eq_none]
    simp only [List.mem_map, List.mem_range]
    rintro _ ⟨k, hk, rfl⟩
    simp [bitmapWord_full hfull hk]
  · exact hbits _ fun bit => List.mem_range.1

/-- **The two loops find the lowest clear bit.** -/
theorem scanWords_eq (b : ℕ → Bool) (n : ℕ) : scanWords b n = (List.range (32 * n)).find? fun f => !b f := by
  induction n with
  | zero => rfl
  | succ n ih =>
      have hrange : List.range (32 * (n + 1)) = List.range (32 * n) ++ (List.range 32).map (n * 32 + ·) := by
        rw [Nat.mul_succ, List.range_add, Nat.mul_comm n 32]
      rw [hrange, List.find?_append, ← ih, ← scanWord_eq, scanWords, List.range_succ, List.findSome?_append,
        List.findSome?_singleton]
      rfl

/-- `pmm_alloc_frame`: the address of the frame, `0` for failure. -/
def pmmAllocAddr (p : Pmm) : ℕ × Pmm :=
  match scanWords p.bitmap p.bitmapWords with
  | none => (0, p)
  | some frame =>
      if p.totalFrames ≤ frame then (0, p)
      else (frame * pageSize,
        { p with bitmap := Function.update p.bitmap frame true, usedFrames := p.usedFrames + 1 })

/-- The loops over words and bits do what the scan over the bits does. -/
theorem pmmAllocAddr_eq (p : Pmm) : pmmAllocAddr p = ((pmmAllocFrame p).1 * pageSize, (pmmAllocFrame p).2) := by
  unfold pmmAllocAddr pmmAllocFrame
  rw [scanWords_eq]
  cases (List.range (32 * p.bitmapWords)).find? fun f => !p.bitmap f with
  | none => simp
  | some f =>
      dsimp only
      split_ifs <;> simp

/-! ### Runs -/

/-- The state of `pmm.c`, and the addresses that were returned and not freed since. -/
structure PmmRun where
  pmm : Pmm
  held : List ℕ

/-- A call. -/
inductive PmmOp
  | reserve (start size : ℕ)
  | alloc
  | free (addr : ℕ)

/-- The address of the frame that `pmm_free_frame` frees for an address. -/
def freedAddr (addr : ℕ) : ℕ := addr / pageSize % 2 ^ 32 * pageSize

/-- One call. -/
def pmmStep (s : PmmRun) : PmmOp → PmmRun
  | .reserve start size => ⟨pmmReserveRange s.pmm start size, s.held⟩
  | .alloc => ⟨(pmmAllocAddr s.pmm).2,
      if (pmmAllocAddr s.pmm).1 = 0 then s.held else (pmmAllocAddr s.pmm).1 :: s.held⟩
  | .free addr => ⟨pmmFreeFrame s.pmm (addr / pageSize), s.held.filter (· ≠ freedAddr addr)⟩

/-- The calls after `pmm_init`. -/
def pmmSystem (memory : ℕ → Bool) (mbi : Multiboot) (kernelEnd : ℕ) : System PmmRun PmmOp :=
  .ofFun (· = ⟨pmmInitOn memory mbi kernelEnd, []⟩) fun s op => some (pmmStep s op)

theorem pmmSystem_init (memory : ℕ → Bool) (mbi : Multiboot) (kernelEnd : ℕ) :
    (pmmSystem memory mbi kernelEnd).Reaches ⟨pmmInitOn memory mbi kernelEnd, []⟩ := .init rfl

/-- What `pmm_init` counts is what the first state has. -/
theorem pmmSystem_counts {memory : ℕ → Bool} {mbi : Multiboot} {kernelEnd used set : ℕ}
    (h : (pmmInitOn memory mbi kernelEnd).usedFrames = used ∧
      Nat.count (fun f => (pmmInitOn memory mbi kernelEnd).bitmap f = true)
        (pmmInitOn memory mbi kernelEnd).totalFrames = set) :
    ∃ s, (pmmSystem memory mbi kernelEnd).Reaches s ∧ s.pmm.usedFrames = used ∧
      Nat.count (fun f => s.pmm.bitmap f = true) s.pmm.totalFrames = set :=
  ⟨_, pmmSystem_init memory mbi kernelEnd, h⟩

/-- The count is right, the bits behind the last frame are set, and the next call of `pmm_alloc_frame` returns the
address of the lowest free frame, which is not one that was returned and not freed. -/
structure PmmRun.Sound (s : PmmRun) : Prop where
  used : s.pmm.usedFrames = Nat.count (fun f => s.pmm.bitmap f = true) s.pmm.totalFrames
  padding : ∀ f, s.pmm.totalFrames ≤ f → f < 32 * s.pmm.bitmapWords → s.pmm.bitmap f = true
  lowest : ∀ f, IsLeast {f | f < s.pmm.totalFrames ∧ s.pmm.bitmap f = false} f →
    (pmmAllocAddr s.pmm).1 = pageSize * f
  full : s.pmm.bitmap 0 = true →
    ((pmmAllocAddr s.pmm).1 = 0 ↔ ∀ f < s.pmm.totalFrames, s.pmm.bitmap f = true)
  fresh : (pmmAllocAddr s.pmm).1 ≠ 0 → (pmmAllocAddr s.pmm).1 ∉ s.held

/-- What every call keeps. -/
structure PmmRun.Inv (s : PmmRun) : Prop where
  excess : s.pmm.Excess 0
  words : s.pmm.totalFrames ≤ 32 * s.pmm.bitmapWords
  padding : ∀ f, s.pmm.totalFrames ≤ f → f < 32 * s.pmm.bitmapWords → s.pmm.bitmap f = true
  held : ∀ a ∈ s.held, ∃ f, a = f * pageSize ∧ s.pmm.bitmap f = true

/-- The lowest free frame is the one that is handed out. -/
theorem pmmAllocFrame_eq_of_isLeast {p : Pmm} (hwords : p.totalFrames ≤ 32 * p.bitmapWords) {f : ℕ}
    (hf : IsLeast {f | f < p.totalFrames ∧ p.bitmap f = false} f) : (pmmAllocFrame p).1 = f := by
  have hfind : (List.range (32 * p.bitmapWords)).find? (fun f => !p.bitmap f) = some f := by
    rw [List.find?_range_eq_some]
    refine ⟨by simp [hf.1.2], List.mem_range.2 (hf.1.1.trans_le hwords), fun g hg => ?_⟩
    by_contra hclear
    have hle := hf.2 ⟨hg.trans hf.1.1, by simpa using hclear⟩
    omega
  rw [pmmAllocFrame, hfind]
  simp [Nat.not_le.2 hf.1.1]

/-- Without a free frame nothing is handed out. -/
theorem pmmAllocFrame_of_full {p : Pmm} (h : ∀ f < p.totalFrames, p.bitmap f = true) : (pmmAllocFrame p).1 = 0 := by
  by_contra hne
  obtain ⟨hclear, hlt, -⟩ := pmmAllocFrame_spec hne
  rw [h _ hlt] at hclear
  exact absurd hclear (by decide)

theorem PmmRun.Inv.sound {s : PmmRun} (h : s.Inv) : s.Sound := by
  have hleast : (∃ f < s.pmm.totalFrames, s.pmm.bitmap f = false) →
      ∃ f, IsLeast {f | f < s.pmm.totalFrames ∧ s.pmm.bitmap f = false} f := by
    classical
    rintro hex
    exact ⟨Nat.find hex, Nat.find_spec hex, fun g hg => Nat.find_min' hex hg⟩
  refine ⟨h.excess, h.padding, fun f hf => ?_, fun hzero => ⟨fun hnull => ?_, fun hall => ?_⟩, fun hne => ?_⟩
  · rw [pmmAllocAddr_eq, pmmAllocFrame_eq_of_isLeast h.words hf, Nat.mul_comm]
  · by_contra hclear
    simp only [not_forall, Bool.not_eq_true, exists_prop] at hclear
    obtain ⟨f, hf⟩ := hleast hclear
    rw [pmmAllocAddr_eq, pmmAllocFrame_eq_of_isLeast h.words hf] at hnull
    have hf0 : f = 0 := by simpa using hnull
    have hbit := hf.1.2
    rw [hf0, hzero] at hbit
    exact absurd hbit (by decide)
  · rw [pmmAllocAddr_eq, pmmAllocFrame_of_full hall, Nat.zero_mul]
  · rw [pmmAllocAddr_eq] at hne ⊢
    intro hmem
    obtain ⟨f, hf, hset⟩ := h.held _ hmem
    have hfeq : (pmmAllocFrame s.pmm).1 = f := Nat.eq_of_mul_eq_mul_right (by decide) hf
    have hclear := (pmmAllocFrame_spec (p := s.pmm) fun h0 => hne (by rw [h0, Nat.zero_mul])).1
    rw [hfeq, hset] at hclear
    exact absurd hclear (by decide)

/-- Calls that are counted keep what concerns the count. -/
theorem PmmRun.Inv.counted {s : PmmRun} (h : s.Inv) {p : Pmm} (hp : Counted s.pmm p) {held : List ℕ}
    (hheld : ∀ a ∈ held, ∃ f, a = f * pageSize ∧ p.bitmap f = true) : (⟨p, held⟩ : PmmRun).Inv where
  excess := hp.excess h.excess
  words := by
    rw [hp.total, hp.words]
    exact h.words
  padding f h₁ h₂ := by
    rw [hp.total] at h₁
    rw [hp.words] at h₂
    rw [hp.behind f h₁]
    exact h.padding f h₁ h₂
  held := hheld

/-- **One call.** -/
theorem PmmRun.Inv.step {s : PmmRun} (h : s.Inv) (op : PmmOp) : (pmmStep s op).Inv := by
  cases op with
  | reserve start size =>
      refine h.counted (Counted.reserveRange _ _ _) fun a ha => ?_
      obtain ⟨f, hf, hset⟩ := h.held a ha
      exact ⟨f, hf, pmmReserveRange_mono hset⟩
  | alloc =>
      have hkept : ∀ a ∈ s.held, ∃ f, a = f * pageSize ∧ (pmmAllocFrame s.pmm).2.bitmap f = true := by
        intro a ha
        obtain ⟨f, hf, hset⟩ := h.held a ha
        exact ⟨f, hf, pmmAllocFrame_mono hset⟩
      simp only [pmmStep, pmmAllocAddr_eq]
      refine h.counted (Counted.allocFrame _) fun a ha => ?_
      split_ifs at ha with hnull
      · exact hkept a ha
      · rcases List.mem_cons.1 ha with rfl | ha
        · refine ⟨_, rfl, ?_⟩
          rw [(pmmAllocFrame_spec (p := s.pmm) fun h0 => hnull (by rw [h0, Nat.zero_mul])).2.2]
          exact Function.update_self _ _ _
        · exact hkept a ha
  | free addr =>
      refine h.counted (Counted.freeFrame _ _) fun a ha => ?_
      rw [List.mem_filter, decide_eq_true_eq] at ha
      obtain ⟨f, hf, hset⟩ := h.held a ha.1
      refine ⟨f, hf, ?_⟩
      rw [pmmFreeFrame_of_ne fun hfreed => ha.2 (by rw [hf, hfreed, freedAddr])]
      exact hset

/-- The state that `pmm_init` leaves. -/
theorem PmmRun.Inv.init {memory : ℕ → Bool} {mbi : Multiboot} {kernelEnd : ℕ}
    (h : BehindSet memory mbi kernelEnd) : (⟨pmmInitOn memory mbi kernelEnd, []⟩ : PmmRun).Inv := by
  have hexcess := pmmInitOn_excess memory mbi kernelEnd
  rw [strayFrames_eq_zero.2 h] at hexcess
  have hfreed := Counted.freeAvailable (pmmMarked memory mbi) mbi
  have hwords : (pmmInitOn memory mbi kernelEnd).bitmapWords = initWords mbi := by
    rw [pmmInitOn_eq, (Counted.reserveModules _ mbi).words, Pmm.reserveFrom_bitmapWords, hfreed.words]
    rfl
  refine ⟨hexcess, ?_, fun f h₁ h₂ => ?_, by simp⟩
  · rw [pmmInitOn_totalFrames, hwords]
    exact total_le_words mbi
  · rw [pmmInitOn_totalFrames] at h₁
    rw [hwords] at h₂
    rw [pmmInitOn_eq]
    refine pmmReserveModules_mono (Pmm.reserveFrom_mono ?_)
    rw [hfreed.behind f h₁]
    simp [pmmMarked, h₂]

/-- **The accounting of frames.**  In every state that calls with any arguments reach after `pmm_init`,
`used_frames` is the number of set bits below `total_frames`, the bits behind are set, and `pmm_alloc_frame`
returns the address of the lowest free frame, and none that was returned and not freed; this holds exactly where
`pmm_init` takes no clear bit behind the bitmap for the bit of a frame. -/
theorem pmm_accounting_iff (memory : ℕ → Bool) (mbi : Multiboot) (kernelEnd : ℕ) :
    (∀ s, (pmmSystem memory mbi kernelEnd).Reaches s → s.Sound) ↔ BehindSet memory mbi kernelEnd := by
  constructor
  · intro h
    have hused := (h _ (pmmSystem_init memory mbi kernelEnd)).used
    have hexcess := pmmInitOn_excess memory mbi kernelEnd
    unfold Pmm.Excess at hexcess
    rw [← strayFrames_eq_zero]
    dsimp only at hused
    omega
  · intro h s hs
    refine (hs.invariant (I := PmmRun.Inv) ?_ ?_).sound
    · rintro s rfl
      exact PmmRun.Inv.init h
    · intro s op s' hinv hstep
      cases hstep
      exact hinv.step op

/-- Where memory ends inside of the page of the bitmap, more frames are used than there are. -/
theorem pmm_accounting_fails : ∃ memory mbi kernelEnd s, (pmmSystem memory mbi kernelEnd).Reaches s ∧
    s.pmm.usedFrames = 513 ∧ Nat.count (fun f => s.pmm.bitmap f = true) s.pmm.totalFrames = 512 := by
  exact ⟨fun _ => false, tightMultiboot, 0x200000, pmmSystem_counts tightMultiboot_used⟩

end LighthOS
