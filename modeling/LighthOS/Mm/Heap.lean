/-
# The kernel heap

`src/mm/heap.c`: the heap is a list of blocks, each with a header of
`HEADER_SIZE` bytes in front of its payload.  `kmalloc` takes the first free block
that is large enough and splits it where enough is left for another block, and
`kfree` merges a block with its free neighbours.

The memory is a function of the address.  A field of a header is one cell, at the
address of its first byte.  Where a loop of the source does not end there is no
result: a walk that takes more steps than there are addresses is in a cycle.
-/

import LighthOS.Lib.Linked
import Mathlib.Tactic

namespace LighthOS

/-- Memory cells by their addresses. -/
abbrev Cells := ℕ → ℕ

/-- The number of addresses. -/
abbrev addressSpace : ℕ := 2 ^ 64

/-- A pointer, none where it is null. -/
def toPtr (a : ℕ) : Option ℕ := if a = 0 then none else some a

theorem toPtr_of_ne_zero {a : ℕ} (h : a ≠ 0) : toPtr a = some a := if_neg h

theorem toPtr_eq_some {a b : ℕ} (hb : b ≠ 0) : toPtr a = some b ↔ a = b := by
  unfold toPtr
  split_ifs with h
  · simp [h, hb.symm]
  · simp

/-! ### Headers -/

/-- `HEADER_SIZE`. -/
abbrev headerSize : ℕ := 32

/-- `ALIGN16` on `uint64_t`. -/
def align16 (x : ℕ) : ℕ := (x + 15) % 2 ^ 64 / 16 * 16

/-- `heap_block_t`. -/
structure HeapBlock where
  size : ℕ
  isFree : Bool
  next : ℕ
  deriving DecidableEq

/-- Read the header at `a`. -/
def loadBlock (mem : Cells) (a : ℕ) : HeapBlock := ⟨mem a, mem (a + 8) != 0, mem (a + 16)⟩

/-- Write the header at `a`. -/
def storeBlock (mem : Cells) (a : ℕ) (b : HeapBlock) : Cells := fun x =>
  if x = a then b.size
  else if x = a + 8 then (if b.isFree then 1 else 0)
  else if x = a + 16 then b.next
  else mem x

/-- `block->next`. -/
def nextBlock (mem : Cells) (a : ℕ) : Option ℕ := toPtr (loadBlock mem a).next

@[simp] theorem loadBlock_storeBlock (mem : Cells) (a : ℕ) (b : HeapBlock) :
    loadBlock (storeBlock mem a b) a = b := by
  obtain ⟨size, isFree, next⟩ := b
  cases isFree <;> simp [loadBlock, storeBlock]

/-- A write to a header is inside its 32 bytes. -/
theorem storeBlock_of_outside (mem : Cells) {a x : ℕ} (b : HeapBlock)
    (h : x < a ∨ a + headerSize ≤ x) : storeBlock mem a b x = mem x := by
  unfold headerSize at h
  unfold storeBlock
  rw [if_neg (by omega), if_neg (by omega), if_neg (by omega)]

@[simp] theorem storeBlock_storeBlock (mem : Cells) (a : ℕ) (b c : HeapBlock) :
    storeBlock (storeBlock mem a b) a c = storeBlock mem a c := by
  funext x
  unfold storeBlock
  split_ifs <;> rfl

/-! ### The functions -/

/-- The heap: the memory and `heap_start`. -/
structure Heap where
  mem : Cells
  heapStart : ℕ

/-- `heap_init`. -/
def heapInit (mem : Cells) (start size : ℕ) : Heap where
  mem := storeBlock mem (align16 start) ⟨(size + 2 ^ 64 - headerSize) % 2 ^ 64, true, 0⟩
  heapStart := align16 start

/-- Whether `kmalloc` takes the block at `a`. -/
def fits (mem : Cells) (size a : ℕ) : Bool :=
  (loadBlock mem a).isFree && decide (size ≤ (loadBlock mem a).size)

/-- The blocks of `kmalloc` after it has chosen the one at `a`: what is left becomes a
block of its own where it can hold a header and 16 bytes. -/
def takeBlock (mem : Cells) (size a : ℕ) : Cells :=
  let b := loadBlock mem a
  let mem :=
    if (size + headerSize + 16) % 2 ^ 64 ≤ b.size then
      let nb := a + headerSize + size
      storeBlock (storeBlock mem nb ⟨(b.size + 2 ^ 64 - size - headerSize) % 2 ^ 64, true, b.next⟩)
        a { b with size := size, next := nb }
    else mem
  storeBlock mem a { loadBlock mem a with isFree := false }

/-- `kmalloc`: the pointer, `0` for null. -/
def kmalloc (h : Heap) (n : ℕ) : Option (ℕ × Heap) :=
  if n = 0 then some (0, h)
  else
    match Linked.search (nextBlock h.mem) (fits h.mem (align16 n)) addressSpace (toPtr h.heapStart) with
    | none => none
    | some none => some (0, h)
    | some (some a) => some (a + headerSize, { h with mem := takeBlock h.mem (align16 n) a })

/-- The block at `a` takes in the block at `c` behind it. -/
def absorb (mem : Cells) (a c : ℕ) : Cells :=
  storeBlock mem a { loadBlock mem a with
    size := ((loadBlock mem a).size + (headerSize + (loadBlock mem c).size)) % 2 ^ 64
    next := (loadBlock mem c).next }

/-- The part of `kfree` that merges the block at `block` with the one behind it. -/
def mergeNext (mem : Cells) (block : ℕ) : Cells :=
  let next := (loadBlock mem block).next
  if next ≠ 0 ∧ (loadBlock mem next).isFree then absorb mem block next else mem

/-- The part of `kfree` that merges the block at `block` with the one before it. -/
def mergePrev (mem : Cells) (heapStart block : ℕ) : Option Cells :=
  if heapStart = block then some mem
  else
    match Linked.search (nextBlock mem) (fun a => (loadBlock mem a).next == block) addressSpace
      (toPtr heapStart) with
    | none => none
    | some none => some mem
    | some (some prev) => some (if (loadBlock mem prev).isFree then absorb mem prev block else mem)

/-- `kfree`. -/
def kfree (h : Heap) (ptr : ℕ) : Option Heap :=
  if ptr = 0 then some h
  else
    let block := ptr - headerSize
    let mem := storeBlock h.mem block { loadBlock h.mem block with isFree := true }
    (mergePrev (mergeNext mem block) h.heapStart block).map fun mem => { h with mem := mem }

/-- A sum over the blocks, in `uint64_t`. -/
def sumBlocks (h : Heap) (f : HeapBlock → ℕ) : Option ℕ :=
  (Linked.nodes (nextBlock h.mem) addressSpace (toPtr h.heapStart)).map fun l =>
    l.foldl (fun u a => (u + f (loadBlock h.mem a)) % 2 ^ 64) 0

/-- What a block adds to `heap_get_used`. -/
def usedBytes (b : HeapBlock) : ℕ := if b.isFree then 0 else b.size + headerSize

/-- What a block adds to `heap_get_free`. -/
def freeBytes (b : HeapBlock) : ℕ := if b.isFree then b.size else 0

/-- `heap_get_used`. -/
def heapGetUsed (h : Heap) : Option ℕ := sumBlocks h usedBytes

/-- `heap_get_free`. -/
def heapGetFree (h : Heap) : Option ℕ := sumBlocks h freeBytes

end LighthOS
