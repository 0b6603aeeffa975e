/-
# Runs of the kernel heap

Any sequence of `kmalloc`, of `kfree` of pointers in use and of writes of the
clients to their bytes.  In every state the blocks tile the heap, no two
neighbours are free, what is handed out is aligned and overlaps nothing, and the
sums of `heap_get_used` and `heap_get_free` add up (`heap_tiled`).

`kmalloc` rounds its argument up to 16 and refuses `0`; it fails in a heap that
has room for the argument but not for the rounded one (`kmalloc_refuses_fit`).
-/

import LighthOS.Mm.HeapTiling
import LighthOS.Lib.System

namespace LighthOS

open Tiling (Tiles)

/-- The heap and the pointers in use, with the sizes that were asked for. -/
structure HeapState where
  heap : Heap
  live : ℕ → Option ℕ

/-- What the clients of the heap do; `write p i v` stores to the byte `i` at `p`. -/
inductive HeapOp
  | kmalloc (n : ℕ)
  | kfree (p : ℕ)
  | write (p i v : ℕ)

/-- Only pointers in use are freed, and only their bytes are written. -/
def HeapOp.Possible (s : HeapState) : HeapOp → Prop
  | .kmalloc n => n < 2 ^ 63
  | .kfree p => (s.live p).isSome = true
  | .write p i _ => ∃ n, s.live p = some n ∧ i < n

/-- One step; none where a call does not return. -/
def heapStep (s : HeapState) : HeapOp → Option HeapState
  | .kmalloc n => (kmalloc s.heap n).map fun r =>
      ⟨r.2, if r.1 = 0 then s.live else Function.update s.live r.1 (some n)⟩
  | .kfree p => (kfree s.heap p).map fun h => ⟨h, Function.update s.live p none⟩
  | .write p i v => some { s with heap := { s.heap with mem := Function.update s.heap.mem (p + i) v } }

/-- The heap of `size` bytes at `start`, in any memory. -/
def heapSystem (start size : ℕ) : System HeapState HeapOp :=
  (System.ofFun (fun s => ∃ mem, s = ⟨heapInit mem start size, fun _ => none⟩) heapStep).restrict
    fun s op => op.Possible s

/-! ### The invariant -/

/-- The blocks in use are those that were handed out and not given back. -/
structure HandedOut (live : ℕ → Option ℕ) (l : List Blk) : Prop where
  used : ∀ b ∈ inUse l, (live (b.addr + headerSize)).isSome = true
  block : ∀ p n, live p = some n → ∃ b ∈ inUse l, b.addr + headerSize = p ∧ n ≤ b.size

/-- The invariant of the heap from `start` to `e`. -/
structure HeapInv (start e : ℕ) (s : HeapState) (l : List Blk) : Prop where
  start_eq : s.heap.heapStart = start
  blocks : Blocks start e s.heap.mem l
  apart : Apart l
  handedOut : HandedOut s.live l

/-- A step from the blocks `l` to the blocks `l'` that writes the headers `ws`, whatever else is
in the memory, and no byte of a block in use. -/
structure HeapWrites (start e : ℕ) (l l' : List Blk) (ws : List (ℕ × HeapBlock)) : Prop where
  blocks : ∀ mem, Blocks start e mem l → Blocks start e (storeBlocks mem ws) l'
  outside : ∀ w ∈ ws, ∀ b ∈ inUse l, w.1 ≤ b.addr ∨ b.addr + b.len ≤ w.1

theorem align16_of_lt {n : ℕ} (h : n < 2 ^ 63) : align16 n = (n + 15) / 16 * 16 := by
  rw [align16, Nat.mod_eq_of_lt (by omega)]

theorem mem_inUse {l : List Blk} {b : Blk} : b ∈ inUse l ↔ b ∈ l ∧ b.free = false := by
  simp [inUse]

section Inv

variable {start size e : ℕ} {s s' : HeapState} {l : List Blk}

/-- Different blocks have different addresses. -/
theorem Blocks.eq_of_addr {mem : Cells} {b c : Blk} (h : Blocks start e mem l) (hb : b ∈ l) (hc : c ∈ l)
    (ha : b.addr = c.addr) : b = c :=
  h.tiles.eq_of_pos_eq (fun b _ => b.len_pos) hb hc ha

/-- After `heap_init` there is one free block. -/
theorem HeapInv.init (mem : Cells) (h16 : start % 16 = 0) (h64 : 64 ≤ size) (hend : start + size ≤ 2 ^ 64) :
    HeapInv start (start + size) ⟨heapInit mem start size, fun _ => none⟩ [⟨start, size - 32, true⟩] := by
  have halign : align16 start = start := by
    rw [align16, Nat.mod_eq_of_lt (by omega)]
    omega
  have hsize : (size + 2 ^ 64 - 32) % 2 ^ 64 = size - 32 := by omega
  refine ⟨halign, ⟨⟨rfl, by simp only [Tiles, Blk.len, headerSize]; omega⟩, fun b hb => ?_, fun b hb => ?_⟩,
    List.isChain_singleton _, ⟨by simp [inUse], by simp⟩⟩
  · obtain rfl := List.mem_singleton.1 hb
    have hlast : blockAt (start + size) (start + Blk.len ⟨start, size - 32, true⟩) = 0 :=
      if_pos (by simp only [Blk.len, headerSize]; omega)
    simp only [heapInit, halign, headerSize, hsize, loadBlock_storeBlock, Blk.header, hlast]
  · obtain rfl := List.mem_singleton.1 hb
    exact h16

variable (h : HeapInv start e s l) (h₀ : start ≠ 0) (hlt : start < e) (he : e ≤ 2 ^ 64)

include h in
/-- Writes to the bytes of a block in use change no header. -/
theorem HeapInv.overwrite {p n : ℕ} (hp : s.live p = some n) {mem : Cells}
    (hmem : ∀ x, x < p ∨ p + n ≤ x → mem x = s.heap.mem x) :
    HeapInv start e { s with heap := { s.heap with mem := mem } } l := by
  obtain ⟨b, hb, rfl, hn⟩ := h.handedOut.block p n hp
  refine ⟨h.start_eq, ⟨h.blocks.tiles, fun c hc => ?_, h.blocks.aligned⟩, h.apart, h.handedOut⟩
  rw [← h.blocks.stored c hc]
  refine loadBlock_congr fun z h₁ h₂ => hmem z ?_
  have hlen : b.len = headerSize + b.size := rfl
  have hlen' : c.len = headerSize + c.size := rfl
  rcases h.blocks.tiles.eq_or_apart (mem_inUse.1 hb).1 hc with rfl | hd | hd <;> omega

include h in
/-- A block in use is not touched by writes to another's bytes. -/
theorem HeapInv.write {p i n v : ℕ} (hp : s.live p = some n) (hi : i < n) :
    HeapInv start e { s with heap := { s.heap with mem := Function.update s.heap.mem (p + i) v } } l :=
  h.overwrite hp fun x hx => Function.update_of_ne (by omega) _ _

/-- The blocks in use after one more was handed out. -/
theorem HandedOut.insert {live : ℕ → Option ℕ} {as bs rest : List Blk} {b c : Blk} {n : ℕ}
    (h : HandedOut live (as ++ b :: bs)) (hb : b.free = true) (hc : c.free = false)
    (hrest : ∀ d ∈ rest, d.free = true) (hn : n ≤ c.size)
    (hne : ∀ d ∈ inUse (as ++ b :: bs), d.addr ≠ c.addr) :
    HandedOut (Function.update live (c.addr + headerSize) (some n)) (as ++ (c :: rest) ++ bs) := by
  have huse : ∀ d, d ∈ inUse (as ++ (c :: rest) ++ bs) ↔ d = c ∨ d ∈ inUse (as ++ b :: bs) := by
    intro d
    simp only [mem_inUse, List.mem_append, List.mem_cons]
    constructor
    · rintro ⟨(hd | rfl | hd) | hd, hf⟩
      · exact Or.inr ⟨Or.inl hd, hf⟩
      · exact Or.inl rfl
      · rw [hrest d hd] at hf
        cases hf
      · exact Or.inr ⟨Or.inr (Or.inr hd), hf⟩
    · rintro (rfl | ⟨hd | rfl | hd, hf⟩)
      · exact ⟨by simp, hc⟩
      · exact ⟨by simp [hd], hf⟩
      · rw [hb] at hf
        cases hf
      · exact ⟨by simp [hd], hf⟩
  refine ⟨fun d hd => ?_, fun p m hp => ?_⟩
  · rcases (huse d).1 hd with rfl | hd
    · simp
    · rw [Function.update_of_ne (by simpa using hne d hd)]
      exact h.used d hd
  · by_cases hpc : p = c.addr + headerSize
    · subst hpc
      rw [Function.update_self, Option.some.injEq] at hp
      exact ⟨c, (huse c).2 (Or.inl rfl), rfl, by omega⟩
    · rw [Function.update_of_ne hpc] at hp
      obtain ⟨d, hd, h₁, h₂⟩ := h.block p m hp
      exact ⟨d, (huse d).2 (Or.inr hd), h₁, h₂⟩

include h in
/-- The bytes of a block in use keep their contents. -/
theorem HeapInv.keeps {l' : List Blk} {ws : List (ℕ × HeapBlock)} (hw : HeapWrites start e l l' ws)
    {p n x : ℕ} (hp : s.live p = some n) (hx : p ≤ x) (hx' : x < p + n) (mem : Cells) :
    storeBlocks mem ws x = mem x := by
  obtain ⟨b, hb, rfl, hn⟩ := h.handedOut.block p n hp
  refine storeBlocks_of_outside mem fun w hw' => ?_
  have hlen : b.len = headerSize + b.size := rfl
  rcases hw.outside w hw' b hb with h | h <;> omega

include h h₀ hlt he in
/-- **`kmalloc`** writes headers, and adds one block in use; or it fails where no block is
large enough and writes nothing. -/
theorem HeapInv.kmalloc_writes {n : ℕ} (hn : n < 2 ^ 63) : ∃ p ws l', HeapWrites start e l l' ws ∧
    (∀ mem, Blocks start e mem l → kmalloc ⟨mem, start⟩ n = some (p, ⟨storeBlocks mem ws, start⟩)) ∧
    (p = 0 → (n = 0 ∨ ∀ b ∈ l, b.free = true → b.size < align16 n) ∧ ws = []) ∧ Apart l' ∧
    HandedOut (if p = 0 then s.live else Function.update s.live p (some n)) l' ∧
    (p ≠ 0 → s.live p = none ∧ ∃ c : Blk, c.addr + headerSize = p ∧ (inUse l').Perm (c :: inUse l)) := by
  have hnothing : HeapWrites start e l l [] := ⟨fun _ h => h, by simp⟩
  by_cases hz : n = 0
  · exact ⟨0, [], l, hnothing, fun _ _ => if_pos hz, fun _ => ⟨Or.inl hz, rfl⟩, h.apart,
      by simpa using h.handedOut, fun hp => absurd rfl hp⟩
  rcases Blocks.kmalloc_cases h₀ hlt he l hz with ⟨as, b, bs, rfl, hb, hsize, hk⟩ | ⟨hnone, hk⟩
  · have halign := align16_of_lt hn
    obtain ⟨m, rest, ws, hm, hrest, hlen, hws, htake⟩ :=
      h.blocks.takeBlock he hsize (by omega) (by omega)
    have hother : ∀ d ∈ inUse (as ++ b :: bs), d.addr ≠ b.addr := by
      intro d hd heq
      have := h.blocks.eq_of_addr (mem_inUse.1 hd).1 (c := b) (by simp) heq
      rw [this] at hd
      rw [(mem_inUse.1 hd).2] at hb
      cases hb
    refine ⟨b.addr + headerSize, ws, as ++ (⟨b.addr, m, false⟩ :: rest) ++ bs,
      ⟨fun mem h => (htake mem h).2, fun w hw d hd => ?_⟩, fun mem h => by rw [hk mem h, (htake mem h).1],
      fun hp => absurd hp (by simp [headerSize]), ?_, ?_, fun _ => ⟨?_, ⟨b.addr, m, false⟩, rfl, ?_⟩⟩
    · have hwb := hws w hw
      rcases h.blocks.tiles.eq_or_apart (mem_inUse.1 hd).1 (show b ∈ as ++ b :: bs by simp) with rfl | hd' | hd'
      · exact absurd rfl (hother d hd)
      · exact Or.inr (by omega)
      · exact Or.inl (by omega)
    · -- the new free block is behind the one in use
      obtain ⟨h₁, h₂⟩ := Apart.split.1 h.apart
      have h₃ : Apart (rest ++ bs) := by
        match rest, hrest, hlen with
        | [], _, _ => exact h₂.tail
        | [c], hc, _ => exact h₂.congr (by simp [hb, hc c])
      rw [List.append_assoc, List.cons_append]
      exact Apart.split.2 ⟨h.apart.left.concat_of_used rfl, h₃.cons_of_used rfl⟩
    · rw [if_neg (by simp [headerSize])]
      exact h.handedOut.insert (c := ⟨b.addr, m, false⟩) (n := n) hb rfl hrest (by simp only; omega) hother
    · by_contra hlive
      obtain ⟨k, hk'⟩ := Option.ne_none_iff_exists'.1 hlive
      obtain ⟨d, hd, hda, -⟩ := h.handedOut.block _ k hk'
      exact hother d hd (by omega)
    · have hfree : inUse rest = [] := List.filter_eq_nil_iff.2 fun c hc => by simp [hrest c hc]
      rw [inUse_append, inUse_append, inUse_cons_of_used rfl, hfree, inUse_append,
        inUse_cons_of_free hb, List.append_assoc]
      exact List.perm_middle
  · exact ⟨0, [], l, hnothing, hk, fun _ => ⟨Or.inr hnone, rfl⟩, h.apart, by simpa using h.handedOut,
      fun hp => absurd rfl hp⟩

include h h₀ hlt he in
/-- `kmalloc` keeps the invariant and adds one block in use, or changes nothing. -/
theorem HeapInv.kmalloc_block {n : ℕ} (hn : n < 2 ^ 63) : ∃ p h', kmalloc s.heap n = some (p, h') ∧
    (p = 0 → (n = 0 ∨ ∀ b ∈ l, b.free = true → b.size < align16 n) ∧ h' = s.heap) ∧
    ∃ l', HeapInv start e ⟨h', if p = 0 then s.live else Function.update s.live p (some n)⟩ l' ∧
      (p ≠ 0 → s.live p = none ∧ ∃ c : Blk, c.addr + headerSize = p ∧ (inUse l').Perm (c :: inUse l)) := by
  obtain ⟨p, ws, l', hw, hk, hfail, hapart, hout, hnew⟩ := h.kmalloc_writes h₀ hlt he hn
  obtain ⟨⟨mem, start'⟩, live⟩ := s
  obtain rfl : start' = start := h.start_eq
  refine ⟨p, _, hk _ h.blocks, fun hp => ⟨(hfail hp).1, ?_⟩, l', ⟨rfl, hw.blocks _ h.blocks, hapart, hout⟩, hnew⟩
  rw [(hfail hp).2]
  rfl

include h h₀ he in
/-- **`kfree`** of a pointer in use writes headers, and takes one block out of use. -/
theorem HeapInv.kfree_writes {p : ℕ} (hp : (s.live p).isSome = true) : ∃ ws l', HeapWrites start e l l' ws ∧
    (∀ mem, Blocks start e mem l → kfree ⟨mem, start⟩ p = some ⟨storeBlocks mem ws, start⟩) ∧ Apart l' ∧
    HandedOut (Function.update s.live p none) l' ∧
      ∃ c : Blk, c.addr + headerSize = p ∧ (inUse l).Perm (c :: inUse l') := by
  obtain ⟨n, hn⟩ := Option.isSome_iff_exists.1 hp
  obtain ⟨b, hb, rfl, -⟩ := h.handedOut.block p n hn
  obtain ⟨hmem, hused⟩ := mem_inUse.1 hb
  obtain ⟨as, bs, rfl⟩ := List.append_of_mem hmem
  obtain ⟨l', ws, hapart, huse, hws, hfree⟩ := h.blocks.kfree h₀ he h.apart
  -- the blocks in use are those from before without `b`
  have huse' : ∀ c, c ∈ inUse l' ↔ c ∈ inUse (as ++ b :: bs) ∧ c.addr ≠ b.addr := by
    intro c
    rw [huse, inUse_append, inUse_cons_of_used hused, List.mem_append, List.mem_append, List.mem_cons]
    constructor
    · rintro (hc | hc)
      · have := h.blocks.tiles.before (mem_inUse.1 hc).1
        have := c.len_pos
        exact ⟨Or.inl hc, by omega⟩
      · have := h.blocks.tiles.behind (mem_inUse.1 hc).1
        have := b.len_pos
        exact ⟨Or.inr (Or.inr hc), by omega⟩
    · rintro ⟨hc | rfl | hc, hne⟩
      · exact Or.inl hc
      · exact absurd rfl hne
      · exact Or.inr hc
  refine ⟨ws, l', ⟨fun mem h => (hfree mem h).2, fun w hw d hd => ?_⟩, fun mem h => (hfree mem h).1, hapart,
    ⟨fun c hc => ?_, fun q m hq => ?_⟩, b, rfl, ?_⟩
  · obtain ⟨c, hc, hwc⟩ := hws w hw
    rcases h.blocks.tiles.eq_or_apart (mem_inUse.1 hd).1 hc with rfl | hd' | hd' <;> omega
  · obtain ⟨hc, hne⟩ := (huse' c).1 hc
    rw [Function.update_of_ne (by omega)]
    exact h.handedOut.used c hc
  · by_cases hqb : q = b.addr + headerSize
    · simp [hqb] at hq
    · rw [Function.update_of_ne hqb] at hq
      obtain ⟨c, hc, rfl, hm⟩ := h.handedOut.block q m hq
      exact ⟨c, (huse' c).2 ⟨hc, by omega⟩, rfl, hm⟩
  · rw [huse, inUse_append, inUse_cons_of_used hused]
    exact List.perm_middle

include h h₀ he in
/-- `kfree` of a pointer in use keeps the invariant and takes one block out of use. -/
theorem HeapInv.kfree_block {p : ℕ} (hp : (s.live p).isSome = true) : ∃ h', kfree s.heap p = some h' ∧
    ∃ l', HeapInv start e ⟨h', Function.update s.live p none⟩ l' ∧
      ∃ c : Blk, c.addr + headerSize = p ∧ (inUse l).Perm (c :: inUse l') := by
  obtain ⟨ws, l', hw, hk, hapart, hout, hc⟩ := h.kfree_writes h₀ he hp
  obtain ⟨⟨mem, start'⟩, live⟩ := s
  obtain rfl : start' = start := h.start_eq
  exact ⟨_, hk _ h.blocks, l', ⟨rfl, hw.blocks _ h.blocks, hapart, hout⟩, hc⟩

end Inv

/-! ### What holds in every state -/

/-- What the heap of `size` bytes at `start` promises, with its blocks `l`. -/
structure HeapOk (start size : ℕ) (s : HeapState) (l : List Blk) : Prop where
  walk : Linked.nodes (nextBlock s.heap.mem) addressSpace (toPtr s.heap.heapStart)
    = some (l.map Blk.addr)
  tiles : Tiles Blk.addr (fun b => headerSize + b.size) start l (start + size)
  headers : ∀ b ∈ l, loadBlock s.heap.mem b.addr = ⟨b.size, b.free,
    if b.addr + (headerSize + b.size) = start + size then 0 else b.addr + (headerSize + b.size)⟩
  sizes : (l.map fun b => headerSize + b.size).sum = size
  apart : Apart l
  payload : ∀ p n, s.live p = some n → p % 16 = 0 ∧ p + n ≤ start + size ∧
    (∀ q m, s.live q = some m → q ≠ p → p + n ≤ q ∨ q + m ≤ p) ∧
    ∀ b ∈ l, p + n ≤ b.addr ∨ b.addr + headerSize ≤ p
  accounts : ∃ u f, heapGetUsed s.heap = some u ∧ heapGetFree s.heap = some f ∧
    u + f + headerSize * l.countP Blk.free = size
  handedOut : HandedOut s.live l
  kmalloc : ∀ n, n < 2 ^ 63 → ∃ p h', kmalloc s.heap n = some (p, h') ∧
    (p = 0 → h' = s.heap ∧ (n = 0 ∨ ∀ b ∈ l, b.free = true → b.size < align16 n)) ∧
    (p ≠ 0 → n ≠ 0 ∧ s.live p = none)
  kfree : ∀ p, (s.live p).isSome = true → (kfree s.heap p).isSome = true
  allFree : (∀ p, s.live p = none) → l = [⟨start, size - headerSize, true⟩]

theorem foldl_add_mod {α : Type*} (f : α → ℕ) (l : List α) (u : ℕ) :
    l.foldl (fun u a => (u + f a) % 2 ^ 64) (u % 2 ^ 64) = (u + (l.map f).sum) % 2 ^ 64 := by
  induction l generalizing u with
  | nil => simp
  | cons a l ih =>
      rw [List.foldl_cons, Nat.mod_add_mod, ih, List.map_cons, List.sum_cons, Nat.add_assoc]

section Ok

variable {start size e : ℕ} {s : HeapState} {l : List Blk}

/-- A sum over the blocks that does not overflow. -/
theorem HeapInv.sumBlocks (h : HeapInv start e s l) (h₀ : start ≠ 0) (hlt : start < e) (he : e ≤ 2 ^ 64)
    (f : HeapBlock → ℕ) (hf : ∀ b : Blk, f (b.header e) ≤ b.len) :
    sumBlocks s.heap f = some (l.map fun b => f (b.header e)).sum := by
  have hnodes := Linked.nodes_eq (h.blocks.segment_start h₀ hlt) (h.blocks.length_le he)
  have hsum : (l.map fun b => f (b.header e)).sum ≤ (l.map Blk.len).sum :=
    List.sum_le_sum fun b _ => hf b
  have htotal := h.blocks.tiles.sum_len
  have hmap : (l.map Blk.addr).map (fun a => f (loadBlock s.heap.mem a))
      = l.map fun b => f (b.header e) := by
    rw [List.map_map]
    exact List.map_congr_left fun b hb => by simp [h.blocks.stored b hb]
  rw [LighthOS.sumBlocks, h.start_eq, hnodes, Option.map_some]
  have hfold := foldl_add_mod (fun a => f (loadBlock s.heap.mem a)) (l.map Blk.addr) 0
  rw [Nat.zero_mod, Nat.zero_add, hmap] at hfold
  rw [hfold, Nat.mod_eq_of_lt (by omega)]

/-- The bytes of a block are used, free, or the header of a free block. -/
theorem sum_accounts (e : ℕ) (l : List Blk) :
    (l.map fun b => usedBytes (b.header e)).sum + (l.map fun b => freeBytes (b.header e)).sum
      + headerSize * l.countP Blk.free = (l.map Blk.len).sum := by
  induction l with
  | nil => rfl
  | cons b l ih =>
      obtain ⟨addr, n, free⟩ := b
      simp only [List.map_cons, List.sum_cons, List.countP_cons, Blk.len, Blk.header, headerSize] at ih ⊢
      cases free
      · simp only [usedBytes, freeBytes, headerSize, Bool.false_eq_true, if_false] at ih ⊢
        omega
      · simp only [usedBytes, freeBytes, headerSize, if_true] at ih ⊢
        omega

/-- Blocks that are all free are one. -/
theorem HeapInv.eq_singleton (h : HeapInv start e s l) (hlt : start < e) (hnone : ∀ p, s.live p = none) :
    ∃ b, l = [b] ∧ b.free = true := by
  have hfree : ∀ b ∈ l, b.free = true := by
    intro b hb
    by_contra hb'
    have := h.handedOut.used b (mem_inUse.2 ⟨hb, by simpa using hb'⟩)
    rw [hnone] at this
    cases this
  match l, h, hfree with
  | [], h, _ => exact absurd (show start = e from h.blocks.tiles) hlt.ne
  | [b], _, hfree => exact ⟨b, rfl, hfree b (by simp)⟩
  | b :: c :: _, h, hfree =>
      exact absurd ⟨hfree b (by simp), hfree c (by simp)⟩ (Apart.cons_cons.1 h.apart).1

theorem HeapInv.ok (h : HeapInv start (start + size) s l) (h₀ : start ≠ 0) (h64 : 64 ≤ size)
    (hend : start + size ≤ 2 ^ 64) : HeapOk start size s l where
  walk := by
    rw [h.start_eq]
    exact Linked.nodes_eq (h.blocks.segment_start h₀ (by omega)) (h.blocks.length_le hend)
  tiles := h.blocks.tiles
  headers := h.blocks.stored
  sizes := Nat.add_left_cancel h.blocks.tiles.sum_len
  apart := h.apart
  payload p n hp := by
    obtain ⟨b, hb, rfl, hn⟩ := h.handedOut.block p n hp
    have hmem := (mem_inUse.1 hb).1
    have halign := h.blocks.aligned b hmem
    have hbound := (h.blocks.tiles.bounds hmem).2
    have hlen : b.len = 32 + b.size := rfl
    simp only [headerSize] at *
    refine ⟨by omega, by omega, fun q m hq hne => ?_, fun c hc => ?_⟩
    · obtain ⟨c, hc, rfl, hm⟩ := h.handedOut.block q m hq
      have hlen' : c.len = 32 + c.size := rfl
      simp only [headerSize] at *
      rcases h.blocks.tiles.eq_or_apart hmem (mem_inUse.1 hc).1 with rfl | hd | hd
      · exact absurd rfl hne
      · omega
      · omega
    · have hlen' : c.len = 32 + c.size := rfl
      rcases h.blocks.tiles.eq_or_apart hmem hc with rfl | hd | hd <;> omega
  accounts := by
    refine ⟨_, _, h.sumBlocks h₀ (by omega) hend _ fun b => ?_, h.sumBlocks h₀ (by omega) hend _ fun b => ?_, ?_⟩
    · cases hb : b.free <;> simp [usedBytes, Blk.header, Blk.len, hb, Nat.add_comm]
    · cases hb : b.free <;> simp [freeBytes, Blk.header, Blk.len, hb]
    · rw [sum_accounts]
      exact Nat.add_left_cancel h.blocks.tiles.sum_len
  handedOut := h.handedOut
  kmalloc n hn := by
    obtain ⟨p, h', hk, hnull, _, -, hnew⟩ := h.kmalloc_block h₀ (by omega) hend hn
    refine ⟨p, h', hk, fun hp => (hnull hp).symm, fun hp => ⟨?_, (hnew hp).1⟩⟩
    rintro rfl
    exact hp (congrArg Prod.fst (Option.some.inj hk)).symm
  kfree p hp := by
    obtain ⟨h', hk, -⟩ := h.kfree_block h₀ hend hp
    simp [hk]
  allFree hnone := by
    obtain ⟨b, rfl, hb⟩ := h.eq_singleton (by omega) hnone
    obtain ⟨h₁, h₂⟩ := Tiling.tiles_singleton.1 h.blocks.tiles
    obtain ⟨addr, n, free⟩ := b
    simp only [Blk.len] at h₁ h₂ hb
    simp only [List.cons.injEq, Blk.mk.injEq, and_true, h₁, hb, true_and]
    omega

end Ok

/-- The heap lies at addresses of 64 bits, not at null. -/
structure HeapRange (start e : ℕ) : Prop where
  start_ne : start ≠ 0
  lt : start < e
  le : e ≤ 2 ^ 64

/-- **The kernel heap keeps its shape.**  In every state that calls of `kmalloc` with
less than `2^63` bytes, `kfree` of pointers in use and writes to what was handed
out lead to, the blocks tile the heap and no two neighbours are free, the blocks in
use are those handed out, aligned and apart, the sums add up, every call returns,
`kmalloc` gives a pointer not in use, or null, which changes nothing, for `0` bytes and
where no free block has the size rounded up to 16, and where nothing is in use the
heap is one free block. -/
theorem heap_tiled {start size : ℕ} (h₀ : start ≠ 0) (h16 : start % 16 = 0) (h64 : 64 ≤ size)
    (hend : start + size ≤ 2 ^ 64) {s : HeapState} (h : (heapSystem start size).Reaches s) :
    ∃ l, HeapOk start size s l := by
  obtain ⟨l, hl⟩ : ∃ l, HeapInv start (start + size) s l := by
    refine h.invariant (I := fun s => ∃ l, HeapInv start (start + size) s l) (fun s₀ hs₀ => ?_)
      fun s₁ op s₂ ⟨l, hl⟩ ⟨hposs, hstep⟩ => ?_
    · obtain ⟨mem, rfl⟩ := hs₀
      exact ⟨_, HeapInv.init mem h16 h64 hend⟩
    · cases op with
      | kmalloc n =>
          obtain ⟨p, h', hk, -, l', hl', -⟩ := hl.kmalloc_block h₀ (by omega) hend hposs
          obtain ⟨r, hr, rfl⟩ := Option.map_eq_some_iff.1 hstep
          rw [hk, Option.some.injEq] at hr
          exact ⟨l', hr ▸ hl'⟩
      | kfree p =>
          obtain ⟨h', hk, l', hl', -⟩ := hl.kfree_block h₀ hend hposs
          obtain ⟨r, hr, rfl⟩ := Option.map_eq_some_iff.1 hstep
          rw [hk, Option.some.injEq] at hr
          exact ⟨l', hr ▸ hl'⟩
      | write p i v =>
          obtain ⟨n, hp, hi⟩ := hposs
          obtain rfl := Option.some.inj hstep
          exact ⟨l, hl.write hp hi⟩
  exact ⟨l, hl.ok h₀ h64 hend⟩

/-- The hypotheses of `heap_tiled` are satisfiable: 100 bytes of a heap of 256. -/
theorem heap_tiled_kmalloc : ∃ s l, s.live 0x1020 = some 100 ∧ HeapOk 0x1000 256 s l := by
  have hrun : (heapStep ⟨heapInit (fun _ => 0) 0x1000 256, fun _ => none⟩ (.kmalloc 100)).any
      (fun s => s.live 0x1020 = some 100) = true := by decide +kernel
  obtain ⟨s, hs, hlive⟩ := (Option.any_eq_true _ _).1 hrun
  have hinit : (heapSystem 0x1000 256).Reaches ⟨heapInit (fun _ => 0) 0x1000 256, fun _ => none⟩ :=
    .init ⟨_, rfl⟩
  have hsize : 100 < 2 ^ 63 := by decide
  have hreach : (heapSystem 0x1000 256).Reaches s := hinit.step (a := .kmalloc 100) ⟨hsize, hs⟩
  obtain ⟨l, hl⟩ := heap_tiled (by decide) (by decide) (by decide) (by decide) hreach
  exact ⟨s, l, of_decide_eq_true hlive, hl⟩

/-- **`kmalloc` refuses what would fit.**  A new heap of 72 bytes has one free block of 40
bytes; 36 bytes are rounded up to 48, and `0` bytes are always refused. -/
theorem kmalloc_refuses_fit : ∃ s, (heapSystem 0x1000 72).Reaches s ∧ s.heap.heapStart = 0x1000 ∧
    loadBlock s.heap.mem 0x1000 = ⟨40, true, 0⟩ ∧
    kmalloc s.heap 36 = some (0, s.heap) ∧ kmalloc s.heap 0 = some (0, s.heap) := by
  have hsearch : Linked.search (nextBlock (heapInit (fun _ => 0) 0x1000 72).mem)
      (fits (heapInit (fun _ => 0) 0x1000 72).mem (align16 36)) addressSpace
      (toPtr (heapInit (fun _ => 0) 0x1000 72).heapStart) = some none := by decide +kernel
  refine ⟨_, .init ⟨fun _ => 0, rfl⟩, by decide, by decide +kernel, ?_, rfl⟩
  rw [kmalloc, if_neg (by decide), hsearch]

end LighthOS
