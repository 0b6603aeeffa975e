/-
# The blocks of the kernel heap

`Blocks start e mem l` says that the headers in the memory describe the blocks of
`l`, which cover the heap from `start` to `e`.  `kmalloc` and `kfree` replace one
block, or two or three neighbours, by others that cover the same bytes
(`Blocks.replace`), so that no other header changes.
-/

import LighthOS.Mm.Heap
import LighthOS.Lib.Tiling

namespace LighthOS

open Tiling (Tiles)

/-- The pointer to the block at `x` of the heap that ends at `e`. -/
def blockAt (e x : ℕ) : ℕ := if x = e then 0 else x

/-- A block of the heap: its address, the size of its payload, and whether it is
free. -/
structure Blk where
  addr : ℕ
  size : ℕ
  free : Bool
  deriving DecidableEq

namespace Blk

/-- The bytes of a block, with its header. -/
def len (b : Blk) : ℕ := headerSize + b.size

theorem len_pos (b : Blk) : 0 < b.len := Nat.add_pos_left (by decide) _

/-- The header of a block of the heap that ends at `e`. -/
def header (e : ℕ) (b : Blk) : HeapBlock := ⟨b.size, b.free, blockAt e (b.addr + b.len)⟩

end Blk

/-- The headers in the memory describe the blocks of the heap. -/
structure Blocks (start e : ℕ) (mem : Cells) (l : List Blk) : Prop where
  tiles : Tiles Blk.addr Blk.len start l e
  stored : ∀ b ∈ l, loadBlock mem b.addr = b.header e
  aligned : ∀ b ∈ l, b.addr % 16 = 0

theorem loadBlock_congr {mem mem' : Cells} {a : ℕ}
    (h : ∀ z, a ≤ z → z < a + headerSize → mem' z = mem z) : loadBlock mem' a = loadBlock mem a := by
  unfold headerSize at h
  unfold loadBlock
  rw [h a (by omega) (by omega), h (a + 8) (by omega) (by omega), h (a + 16) (by omega) (by omega)]

theorem loadBlock_storeBlock_of_apart (mem : Cells) {a c : ℕ} (x : HeapBlock)
    (h : a + headerSize ≤ c ∨ c + headerSize ≤ a) :
    loadBlock (storeBlock mem a x) c = loadBlock mem c :=
  loadBlock_congr fun z h₁ h₂ => storeBlock_of_outside mem x (by omega)

/-- Write headers, one after another. -/
def storeBlocks (mem : Cells) (ws : List (ℕ × HeapBlock)) : Cells :=
  ws.foldl (fun mem w => storeBlock mem w.1 w.2) mem

theorem storeBlocks_of_outside (mem : Cells) {ws : List (ℕ × HeapBlock)} {x : ℕ}
    (h : ∀ w ∈ ws, x < w.1 ∨ w.1 + headerSize ≤ x) : storeBlocks mem ws x = mem x := by
  induction ws generalizing mem with
  | nil => rfl
  | cons w ws ih =>
      rw [storeBlocks, List.foldl_cons]
      refine (ih _ fun v hv => h v (List.mem_cons_of_mem w hv)).trans ?_
      exact storeBlock_of_outside mem w.2 (h w List.mem_cons_self)

namespace Blocks

variable {start e x y : ℕ} {mem mem' : Cells} {l as mid mid' bs : List Blk} {b c : Blk}

/-- **Blocks are replaced** by others that cover the same bytes. -/
theorem replace (h : Blocks start e mem (as ++ mid ++ bs)) (has : Tiles Blk.addr Blk.len start as x)
    (hnew : Tiles Blk.addr Blk.len x mid' y) (hbs : Tiles Blk.addr Blk.len y bs e)
    (hmem : ∀ z, z < x ∨ y ≤ z → mem' z = mem z)
    (hst : ∀ b ∈ mid', loadBlock mem' b.addr = b.header e ∧ b.addr % 16 = 0) :
    Blocks start e mem' (as ++ mid' ++ bs) := by
  have hout : ∀ b ∈ as ++ bs, loadBlock mem' b.addr = loadBlock mem b.addr := by
    intro b hb
    refine loadBlock_congr fun z h₁ h₂ => hmem z ?_
    rcases List.mem_append.1 hb with hb | hb
    · have := (has.bounds hb).2
      simp only [Blk.len] at this
      omega
    · have := (hbs.bounds hb).1
      omega
  have hmem' : ∀ b ∈ as ++ mid' ++ bs, b ∈ mid' ∨ b ∈ as ++ bs := by
    intro b hb
    simp only [List.mem_append] at hb ⊢
    tauto
  have hold : ∀ b ∈ as ++ bs, b ∈ as ++ mid ++ bs := by
    intro b hb
    simp only [List.mem_append] at hb ⊢
    tauto
  refine ⟨?_, fun b hb => ?_, fun b hb => ?_⟩
  · exact Tiling.tiles_append.2 ⟨y, Tiling.tiles_append.2 ⟨x, has, hnew⟩, hbs⟩
  · rcases hmem' b hb with hb | hb
    · exact (hst b hb).1
    · rw [hout b hb]
      exact h.stored b (hold b hb)
  · rcases hmem' b hb with hb | hb
    · exact (hst b hb).2
    · exact h.aligned b (hold b hb)

/-- The list that starts at `heap_start` has the addresses of the blocks. -/
theorem segment (ht : Tiles Blk.addr Blk.len start l e) (hst : ∀ b ∈ l, loadBlock mem b.addr = b.header e)
    (h₀ : start ≠ 0) :
    Linked.Segment (nextBlock mem) (if start = e then none else some start) (l.map Blk.addr) none := by
  induction l generalizing start with
  | nil =>
      rw [if_pos (show start = e from ht)]
      rfl
  | cons b l ih =>
      obtain ⟨rfl, ht⟩ := ht
      have hend := ht.le
      have hpos := b.len_pos
      refine ⟨by rw [if_neg (by omega)], ?_⟩
      have hnext : nextBlock mem b.addr = if b.addr + b.len = e then none else some (b.addr + b.len) := by
        rw [nextBlock, hst b List.mem_cons_self, Blk.header]
        simp only [blockAt]
        split_ifs
        · rfl
        · exact toPtr_of_ne_zero (by omega)
      rw [hnext]
      exact ih ht (fun c hc => hst c (List.mem_cons_of_mem b hc)) (by omega)

section Walk

variable (h : Blocks start e mem l) (h₀ : start ≠ 0) (hlt : start < e) (he : e ≤ 2 ^ 64)

include h

theorem length_le (he : e ≤ 2 ^ 64) : (l.map Blk.addr).length ≤ addressSpace := by
  have hlen := h.tiles.length_mul_le (m := 1) fun b _ => b.len_pos
  simp only [List.length_map, addressSpace]
  omega

include h₀ hlt

theorem segment_start : Linked.Segment (nextBlock mem) (toPtr start) (l.map Blk.addr) none := by
  have := segment h.tiles h.stored h₀
  rwa [if_neg hlt.ne, ← toPtr_of_ne_zero h₀] at this

include he

/-- A search along the list of the heap. -/
theorem search_eq (found : ℕ → Bool) :
    Linked.search (nextBlock mem) found addressSpace (toPtr start)
      = some ((l.find? fun b => found b.addr).map Blk.addr) := by
  rw [Linked.search_eq_find? (h.segment_start h₀ hlt) (h.length_le he), List.find?_map]
  rfl

end Walk

/-- A block is smaller than the heap. -/
theorem size_lt (h : Blocks start e mem l) (he : e ≤ 2 ^ 64) (hb : b ∈ l) : b.size + 32 ≤ 2 ^ 64 := by
  have := (h.tiles.bounds hb).2
  simp only [Blk.len, headerSize] at this
  omega

/-! ### Allocation -/

/-- **A block is taken** whole, or split where enough is left.  What is written does not
depend on the memory outside the headers. -/
theorem takeBlock (h : Blocks start e mem (as ++ b :: bs)) (he : e ≤ 2 ^ 64) {size : ℕ}
    (hs : size ≤ b.size) (h16 : size % 16 = 0) (hbig : size + 48 < 2 ^ 64) :
    ∃ n rest ws, size ≤ n ∧ (∀ c ∈ rest, c.free = true) ∧ rest.length ≤ 1 ∧
      (∀ w ∈ ws, b.addr ≤ w.1 ∧ w.1 + headerSize ≤ b.addr + b.len) ∧
      ∀ mem, Blocks start e mem (as ++ b :: bs) → takeBlock mem size b.addr = storeBlocks mem ws ∧
        Blocks start e (storeBlocks mem ws) (as ++ (⟨b.addr, n, false⟩ :: rest) ++ bs) := by
  obtain ⟨has, hbs⟩ := h.tiles.split
  have hmem : b ∈ as ++ b :: bs := by simp
  have haligned := h.aligned b hmem
  have hsize := h.size_lt he hmem
  have hend := hbs.le
  have hlen : b.len = 32 + b.size := rfl
  by_cases hsplit : size + 48 ≤ b.size
  · -- the rest of the block gets a header of its own
    have hrest : (b.size + 2 ^ 64 - size - 32) % 2 ^ 64 = b.size - size - 32 := by omega
    refine ⟨size, [⟨b.addr + 32 + size, b.size - size - 32, true⟩],
      [(b.addr + 32 + size, ⟨b.size - size - 32, true, blockAt e (b.addr + b.len)⟩),
        (b.addr, ⟨size, false, b.addr + 32 + size⟩)], le_rfl, by simp, by simp, ?_, fun mem h => ?_⟩
    · simp only [List.forall_mem_cons, headerSize]
      exact ⟨by omega, by omega, by simp⟩
    have h' : Blocks start e mem (as ++ [b] ++ bs) := by simpa using h
    refine ⟨?_, h'.replace has (y := b.addr + b.len) ?_ hbs (fun z hz => ?_) fun c hc => ?_⟩
    · unfold LighthOS.takeBlock
      simp only [h.stored b hmem, Blk.header, headerSize]
      rw [if_pos (by rw [Nat.mod_eq_of_lt (by omega)]; omega), hrest]
      simp only [loadBlock_storeBlock, storeBlock_storeBlock]
      rfl
    · exact ⟨rfl, by simp only [Blk.len, headerSize]; omega, by
        simp only [Tiles, Blk.len, headerSize]; omega⟩
    · refine storeBlocks_of_outside mem ?_
      simp only [List.forall_mem_cons, headerSize]
      exact ⟨by omega, by omega, by simp⟩
    · simp only [storeBlocks, List.foldl_cons, List.foldl_nil]
      rcases List.mem_cons.1 hc with rfl | hc
      · refine ⟨?_, haligned⟩
        rw [loadBlock_storeBlock, Blk.header, blockAt, if_neg (by simp only [Blk.len, headerSize]; omega)]
        simp only [Blk.len, Nat.add_assoc]
      · obtain rfl := List.mem_singleton.1 hc
        refine ⟨?_, by simp only; omega⟩
        rw [loadBlock_storeBlock_of_apart _ _ (by simp only [headerSize]; omega), loadBlock_storeBlock]
        simp only [Blk.header, Blk.len, headerSize]
        rw [show b.addr + 32 + size + (32 + (b.size - size - 32)) = b.addr + (32 + b.size) by omega]
  · refine ⟨b.size, [], [(b.addr, { b.header e with isFree := false })], hs, by simp, by simp, ?_,
      fun mem h => ?_⟩
    · simp only [List.mem_singleton, forall_eq, headerSize]
      omega
    have h' : Blocks start e mem (as ++ [b] ++ bs) := by simpa using h
    refine ⟨?_, h'.replace has (y := b.addr + b.len) ⟨rfl, rfl⟩ hbs (fun z hz => ?_) fun c hc => ?_⟩
    · unfold LighthOS.takeBlock
      simp only [h.stored b hmem, Blk.header, headerSize]
      rw [if_neg (by rw [Nat.mod_eq_of_lt (by omega)]; omega), h.stored b hmem]
      rfl
    · exact storeBlocks_of_outside mem (by simp only [List.mem_singleton, forall_eq, headerSize]; omega)
    · obtain rfl := List.mem_singleton.1 hc
      exact ⟨loadBlock_storeBlock .., haligned⟩

/-- **`kmalloc`** takes the first free block that is large enough, or fails where
there is none. -/
theorem kmalloc_cases (h₀ : start ≠ 0) (hlt : start < e) (he : e ≤ 2 ^ 64) (l : List Blk)
    {n : ℕ} (hn : n ≠ 0) :
    (∃ as b bs, l = as ++ b :: bs ∧ b.free = true ∧ align16 n ≤ b.size ∧
      ∀ mem, Blocks start e mem l → kmalloc ⟨mem, start⟩ n
        = some (b.addr + headerSize, ⟨LighthOS.takeBlock mem (align16 n) b.addr, start⟩)) ∨
    (∀ b ∈ l, b.free = true → b.size < align16 n) ∧
      ∀ mem, Blocks start e mem l → kmalloc ⟨mem, start⟩ n = some (0, ⟨mem, start⟩) := by
  have hfind : ∀ mem, Blocks start e mem l → (l.find? fun b => fits mem (align16 n) b.addr) =
      l.find? fun b => b.free && decide (align16 n ≤ b.size) := fun mem h =>
    List.find?_congr fun b hb => by rw [fits, h.stored b hb]; rfl
  cases hfound : l.find? fun b => b.free && decide (align16 n ≤ b.size) with
  | none =>
      refine Or.inr ⟨fun b hb hfree => ?_, fun mem h => ?_⟩
      · have hnot := List.find?_eq_none.1 hfound b hb
        rw [hfree] at hnot
        simpa using hnot
      · rw [kmalloc, if_neg hn, h.search_eq h₀ hlt he, hfind mem h, hfound]
        rfl
  | some b =>
      obtain ⟨hb, as, bs, hl, -⟩ := List.find?_eq_some_iff_append.1 hfound
      rw [Bool.and_eq_true, decide_eq_true_eq] at hb
      refine Or.inl ⟨as, b, bs, hl, hb.1, hb.2, fun mem h => ?_⟩
      rw [kmalloc, if_neg hn, h.search_eq h₀ hlt he, hfind mem h, hfound]
      rfl

/-! ### Release -/

/-- A block is marked. -/
theorem setFree (h : Blocks start e mem (as ++ b :: bs)) (f : Bool) :
    Blocks start e (storeBlock mem b.addr { loadBlock mem b.addr with isFree := f })
      (as ++ { b with free := f } :: bs) := by
  obtain ⟨has, hbs⟩ := h.tiles.split
  have hmem : b ∈ as ++ b :: bs := by simp
  have h' : Blocks start e mem (as ++ [b] ++ bs) := by simpa using h
  have hlen : b.len = 32 + b.size := rfl
  have hnew : Blocks start e (storeBlock mem b.addr { loadBlock mem b.addr with isFree := f })
      (as ++ [{ b with free := f }] ++ bs) := by
    refine h'.replace has (y := b.addr + b.len) ⟨rfl, rfl⟩ hbs
      (fun z hz => storeBlock_of_outside _ _ (by simp only [headerSize]; omega)) fun c hc => ?_
    obtain rfl := List.mem_singleton.1 hc
    rw [loadBlock_storeBlock, h.stored b hmem]
    exact ⟨rfl, h.aligned b hmem⟩
  simpa using hnew

/-- **A block takes in the one behind it.** -/
theorem absorb (h : Blocks start e mem (as ++ b :: c :: bs)) (he : e ≤ 2 ^ 64) :
    Blocks start e (absorb mem b.addr c.addr)
      (as ++ ⟨b.addr, b.size + (headerSize + c.size), b.free⟩ :: bs) := by
  obtain ⟨has, hcs⟩ := h.tiles.split
  obtain ⟨hc, hbs⟩ := hcs
  have hb : b ∈ as ++ b :: c :: bs := by simp
  have hc' : c ∈ as ++ b :: c :: bs := by simp
  have hend := hbs.le
  have hlen : b.len = 32 + b.size := rfl
  have hlen' : c.len = 32 + c.size := rfl
  have h' : Blocks start e mem (as ++ [b, c] ++ bs) := by simpa using h
  have hsum : (b.size + (headerSize + c.size)) % 2 ^ 64 = b.size + (headerSize + c.size) := by
    simp only [headerSize]
    omega
  have hnew : Blocks start e (LighthOS.absorb mem b.addr c.addr)
      (as ++ [⟨b.addr, b.size + (headerSize + c.size), b.free⟩] ++ bs) := by
    refine h'.replace has (y := b.addr + b.len + c.len) ⟨rfl, by simp only [Tiles, Blk.len]; omega⟩ hbs
      (fun z hz => storeBlock_of_outside _ _ (by simp only [headerSize]; omega)) fun d hd => ?_
    obtain rfl := List.mem_singleton.1 hd
    refine ⟨?_, h.aligned b hb⟩
    rw [LighthOS.absorb, loadBlock_storeBlock, h.stored b hb, h.stored c hc']
    simp only [Blk.header, hsum, HeapBlock.mk.injEq, true_and]
    congr 1
    simp only [Blk.len] at hc ⊢
    omega
  simpa using hnew

/-- Only the block before the one at `b` points to it. -/
theorem find_prev (h : Blocks start e mem (as ++ c :: b :: bs)) :
    ((as ++ c :: b :: bs).find? fun x => (loadBlock mem x.addr).next == b.addr) = some c := by
  obtain ⟨has, hc, -⟩ := h.tiles.split
  have hle := has.le
  have hpos := c.len_pos
  have hnext : ∀ x ∈ as ++ c :: b :: bs, (loadBlock mem x.addr).next = blockAt e (x.addr + x.len) :=
    fun x hx => by rw [h.stored x hx]; rfl
  have hend : b.addr < e := by
    have hb := (h.tiles.bounds (b := b) (by simp)).2
    have := b.len_pos
    omega
  refine List.find?_eq_some_iff_append.2 ⟨?_, as, b :: bs, rfl, fun x hx => ?_⟩
  · rw [hnext c (by simp), blockAt, if_neg (by omega), beq_iff_eq]
    exact hc.symm
  · have hx' := (has.bounds hx).2
    rw [hnext x (by simp [hx]), blockAt]
    split_ifs <;> simp <;> omega

end Blocks

/-- No two neighbours are free. -/
def Apart (l : List Blk) : Prop := (l.map Blk.free).IsChain fun x y => ¬(x = true ∧ y = true)

/-- The blocks in use. -/
def inUse (l : List Blk) : List Blk := l.filter fun b => !b.free

theorem inUse_append (l₁ l₂ : List Blk) : inUse (l₁ ++ l₂) = inUse l₁ ++ inUse l₂ := List.filter_append ..

theorem inUse_cons_of_free {b : Blk} (hb : b.free = true) (l : List Blk) : inUse (b :: l) = inUse l := by
  simp [inUse, hb]

theorem inUse_cons_of_used {b : Blk} (hb : b.free = false) (l : List Blk) :
    inUse (b :: l) = b :: inUse l := by
  simp [inUse, hb]

namespace Apart

variable {l₁ l₂ : List Blk} {b c : Blk}

theorem split : Apart (l₁ ++ b :: l₂) ↔ Apart (l₁ ++ [b]) ∧ Apart (b :: l₂) := by
  simp only [Apart, List.map_append, List.map_cons, List.map_nil]
  exact List.isChain_split

theorem cons_cons : Apart (b :: c :: l₂) ↔ ¬(b.free = true ∧ c.free = true) ∧ Apart (c :: l₂) :=
  List.isChain_cons_cons

theorem tail (h : Apart (b :: l₂)) : Apart l₂ := List.IsChain.tail h

theorem left (h : Apart (l₁ ++ l₂)) : Apart l₁ := by
  rw [Apart, List.map_append] at h
  exact h.left_of_append

/-- Only the marks matter. -/
theorem congr (h : Apart l₁) (hm : l₂.map Blk.free = l₁.map Blk.free) : Apart l₂ := by
  rw [Apart, hm]
  exact h

/-- A block in use may stand before any list. -/
theorem cons_of_used (hb : b.free = false) (h : Apart l₂) : Apart (b :: l₂) := by
  cases l₂ with
  | nil => exact List.isChain_singleton _
  | cons c l₂ => exact cons_cons.2 ⟨by simp [hb], h⟩

/-- A block in use may stand behind any list. -/
theorem concat_of_used (hb : b.free = false) (h : Apart l₁) : Apart (l₁ ++ [b]) := by
  rw [Apart, List.map_append]
  refine List.isChain_append.2 ⟨h, List.isChain_singleton _, fun x _ y hy => ?_⟩
  obtain rfl : b.free = y := by simpa using hy
  simp [hb]

end Apart

namespace Blocks

variable {start e : ℕ} {mem : Cells} {as bs : List Blk} {b : Blk}

/-- The header of a block that has taken in the one behind it. -/
def absorbed (e : ℕ) (b c : Blk) : ℕ × HeapBlock :=
  (b.addr, ⟨(b.size + (headerSize + c.size)) % 2 ^ 64, b.free, blockAt e (c.addr + c.len)⟩)

theorem absorb_eq {c : Blk} (h : Blocks start e mem (as ++ b :: c :: bs)) :
    LighthOS.absorb mem b.addr c.addr = storeBlocks mem [absorbed e b c] := by
  rw [LighthOS.absorb, h.stored b (by simp), h.stored c (by simp)]
  rfl

section

variable (h : Blocks start e mem (as ++ b :: bs))
include h

/-- A free block takes in a free block behind it. -/
theorem mergeNext (h₀ : start ≠ 0) (he : e ≤ 2 ^ 64) (hb : b.free = true) (hbs : Apart bs) :
    ∃ b₂ bs₂ ws, b₂.addr = b.addr ∧ b₂.free = true ∧ Apart (b₂ :: bs₂) ∧ inUse bs₂ = inUse bs ∧
      (∀ w ∈ ws, w.1 = b.addr) ∧ ∀ mem, Blocks start e mem (as ++ b :: bs) →
        mergeNext mem b.addr = storeBlocks mem ws ∧ Blocks start e (storeBlocks mem ws) (as ++ b₂ :: bs₂) := by
  have hnext : ∀ mem, Blocks start e mem (as ++ b :: bs) →
      (loadBlock mem b.addr).next = blockAt e (b.addr + b.len) := fun mem h => by
    rw [h.stored b (by simp)]
    rfl
  cases bs with
  | nil =>
      have hend : b.addr + b.len = e := h.tiles.split.2
      refine ⟨b, [], [], rfl, hb, List.isChain_singleton _, rfl, by simp, fun mem h => ⟨?_, h⟩⟩
      rw [LighthOS.mergeNext, hnext mem h, blockAt, if_pos hend, if_neg (by simp)]
      rfl
  | cons c bs =>
      have hc : c ∈ as ++ b :: c :: bs := by simp
      have haddr : c.addr = b.addr + b.len := h.tiles.split.2.1
      have hstart := (h.tiles.bounds hc).1
      have hend : b.addr + b.len ≠ e := by
        have := (h.tiles.bounds hc).2
        have := c.len_pos
        omega
      have hcond : ∀ mem, Blocks start e mem (as ++ b :: c :: bs) → LighthOS.mergeNext mem b.addr =
          if c.free = true then LighthOS.absorb mem b.addr c.addr else mem := fun mem h => by
        rw [LighthOS.mergeNext, hnext mem h, blockAt, if_neg hend, ← haddr, h.stored c hc]
        exact if_congr ⟨And.right, fun h => ⟨by omega, h⟩⟩ rfl rfl
      by_cases hfree : c.free = true
      · refine ⟨⟨b.addr, b.size + (headerSize + c.size), b.free⟩, bs, [absorbed e b c], rfl, hb,
          hbs.congr (by simp [hb, hfree]), (inUse_cons_of_free hfree bs).symm, by simp [absorbed],
          fun mem h => ⟨?_, ?_⟩⟩
        · rw [hcond mem h, if_pos hfree, h.absorb_eq]
        · rw [← h.absorb_eq]
          exact h.absorb he
      · refine ⟨b, c :: bs, [], rfl, hb, Apart.cons_cons.2 ⟨fun h => hfree h.2, hbs⟩, rfl, by simp,
          fun mem h => ⟨?_, h⟩⟩
        rw [hcond mem h, if_neg hfree]
        rfl

/-- A free block is taken in by a free block before it. -/
theorem mergePrev (h₀ : start ≠ 0) (he : e ≤ 2 ^ 64) (hb : b.free = true) (has : Apart as) (hbs : Apart (b :: bs)) :
    ∃ l' ws, Apart l' ∧ inUse l' = inUse as ++ inUse bs ∧ (∀ w ∈ ws, ∃ c ∈ as, w.1 = c.addr) ∧
      ∀ mem, Blocks start e mem (as ++ b :: bs) →
        mergePrev mem start b.addr = some (storeBlocks mem ws) ∧ Blocks start e (storeBlocks mem ws) l' := by
  have hlt : start < e := by
    have := h.tiles.bounds (b := b) (by simp)
    have := b.len_pos
    omega
  rcases List.eq_nil_or_concat as with rfl | ⟨as, d, rfl⟩
  · have hstart : b.addr = start := h.tiles.1
    refine ⟨_, [], hbs, inUse_cons_of_free hb bs, by simp, fun mem h => ⟨?_, h⟩⟩
    rw [LighthOS.mergePrev, if_pos hstart.symm]
    rfl
  · have hcons : ∀ mem, Blocks start e mem (as.concat d ++ b :: bs) →
        Blocks start e mem (as ++ d :: b :: bs) := fun mem h => by simpa using h
    have h' := hcons mem h
    have hne : start ≠ b.addr := by
      have := (h'.tiles.bounds (b := d) (by simp)).1
      have := h'.tiles.split.2.1
      have := d.len_pos
      omega
    have hcond : ∀ mem, Blocks start e mem (as ++ d :: b :: bs) → LighthOS.mergePrev mem start b.addr =
        some (if d.free = true then LighthOS.absorb mem d.addr b.addr else mem) := fun mem h => by
      rw [LighthOS.mergePrev, if_neg hne, h.search_eq h₀ hlt he, h.find_prev]
      simp only [Option.map_some, h.stored d (by simp)]
      rfl
    by_cases hfree : d.free = true
    · refine ⟨as ++ ⟨d.addr, d.size + (headerSize + b.size), d.free⟩ :: bs, [absorbed e d b],
        Apart.split.2 ⟨has.congr (by simp), hbs.congr (by simp [hb, hfree])⟩, by simp [inUse, hfree],
        by simp [absorbed], fun mem h => ⟨?_, ?_⟩⟩
      · rw [hcond mem (hcons mem h), if_pos hfree, (hcons mem h).absorb_eq]
      · rw [← (hcons mem h).absorb_eq]
        exact (hcons mem h).absorb he
    · refine ⟨as ++ d :: b :: bs, [], Apart.split.2 ⟨by simpa using has, Apart.cons_cons.2
        ⟨fun hf => hfree hf.1, hbs⟩⟩, ?_, by simp, fun mem h => ⟨?_, hcons mem h⟩⟩
      · rw [Bool.not_eq_true] at hfree
        simp [inUse, hb, hfree]
      · rw [hcond mem (hcons mem h), if_neg hfree]
        rfl

/-- **`kfree`** gives a block back and merges it with its free neighbours.  It writes headers of
blocks, and what it writes does not depend on the memory outside the headers. -/
theorem kfree (h₀ : start ≠ 0) (he : e ≤ 2 ^ 64) (hapart : Apart (as ++ b :: bs)) :
    ∃ l' ws, Apart l' ∧ inUse l' = inUse as ++ inUse bs ∧ (∀ w ∈ ws, ∃ c ∈ as ++ b :: bs, w.1 = c.addr) ∧
      ∀ mem, Blocks start e mem (as ++ b :: bs) →
        kfree ⟨mem, start⟩ (b.addr + headerSize) = some ⟨storeBlocks mem ws, start⟩ ∧
          Blocks start e (storeBlocks mem ws) l' := by
  have hset : ∀ mem, Blocks start e mem (as ++ b :: bs) → Blocks start e
      (storeBlock mem b.addr { b.header e with isFree := true }) (as ++ { b with free := true } :: bs) :=
    fun mem h => by simpa only [h.stored b (by simp)] using h.setFree true
  obtain ⟨b₂, bs₂, ws₁, haddr, hfree, hbs₂, huse, hws₁, hnext⟩ :=
    (hset mem h).mergeNext h₀ he rfl (Apart.split.1 hapart).2.tail
  obtain ⟨l', ws₂, hl', huse', hws₂, hprev⟩ :=
    (hnext _ (hset mem h)).2.mergePrev h₀ he hfree hapart.left hbs₂
  refine ⟨l', (b.addr, { b.header e with isFree := true }) :: ws₁ ++ ws₂, hl', by rw [huse', huse], ?_,
    fun mem h => ?_⟩
  · intro w hw
    rcases List.mem_append.1 hw with hw | hw
    · rcases List.mem_cons.1 hw with rfl | hw
      · exact ⟨b, by simp, rfl⟩
      · exact ⟨b, by simp, hws₁ w hw⟩
    · obtain ⟨c, hc, hwc⟩ := hws₂ w hw
      exact ⟨c, by simp [hc], hwc⟩
  · obtain ⟨hn, hbn⟩ := hnext _ (hset mem h)
    obtain ⟨hp, hbp⟩ := hprev _ hbn
    have hstores : storeBlocks mem ((b.addr, { b.header e with isFree := true }) :: ws₁ ++ ws₂) = storeBlocks
        (storeBlocks (storeBlock mem b.addr { b.header e with isFree := true }) ws₁) ws₂ := by
      rw [storeBlocks, List.foldl_append]
      rfl
    rw [hstores]
    refine ⟨?_, hbp⟩
    rw [LighthOS.kfree, if_neg (by simp [headerSize])]
    simp only [Nat.add_sub_cancel, h.stored b (by simp)]
    rw [haddr] at hp
    simp only at hn
    rw [hn, hp]
    rfl

end

end Blocks

end LighthOS
