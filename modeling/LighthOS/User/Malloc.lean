/-
# The user heap

`src/user/libc/malloc.c`: the arena is a sequence of blocks, each with a header of
`HDR_SIZE` bytes that holds its size, the size of the block before it and whether
it is free, and the free blocks are linked in a list.  The arena grows by what
`sys_sbrk` returns.

A field of a header is one cell, at the address of its first byte; the fields of
type `uint32_t` are taken modulo `2^32`.  Where a loop of the source does not end
there is no result.
-/

import LighthOS.Mm.Heap

namespace LighthOS

/-! ### Headers -/

/-- `HDR_SIZE`. -/
abbrev hdrSize : ℕ := 24

/-- `MIN_BLOCK`. -/
abbrev minBlock : ℕ := 40

/-- `block_t`. -/
structure Hdr where
  size : ℕ
  prevSize : ℕ
  nextFree : ℕ
  free : Bool
  deriving DecidableEq

/-- Read the header at `a`. -/
def loadHdr (mem : Cells) (a : ℕ) : Hdr := ⟨mem a, mem (a + 4), mem (a + 8), mem (a + 16) != 0⟩

/-- Write the header at `a`. -/
def storeHdr (mem : Cells) (a : ℕ) (h : Hdr) : Cells := fun x =>
  if x = a then h.size
  else if x = a + 4 then h.prevSize
  else if x = a + 8 then h.nextFree
  else if x = a + 16 then (if h.free then 1 else 0)
  else mem x

/-- The variables of the allocator: `free_head`, `arena_start` and `arena_end`. -/
structure Arena where
  mem : Cells
  freeHead : ℕ
  arenaStart : ℕ
  arenaEnd : ℕ

namespace Arena

/-- The header at `a`. -/
def hdr (s : Arena) (a : ℕ) : Hdr := loadHdr s.mem a

/-- Change the header at `a`. -/
def setHdr (s : Arena) (a : ℕ) (f : Hdr → Hdr) : Arena :=
  { s with mem := storeHdr s.mem a (f (loadHdr s.mem a)) }

end Arena

/-- `next_block`. -/
def nextPhys (s : Arena) (b : ℕ) : Option ℕ :=
  let p := b + (s.hdr b).size
  if p < s.arenaEnd then some p else none

/-- `b->next_free`. -/
def nextFree (s : Arena) (b : ℕ) : Option ℕ := toPtr (s.hdr b).nextFree

/-! ### The free list -/

/-- `freelist_insert`. -/
def freelistInsert (s : Arena) (b : ℕ) : Arena :=
  { s.setHdr b fun h => { h with free := true, nextFree := s.freeHead } with freeHead := b }

/-- Take the block behind `prev` out of the free list. -/
def setLink (s : Arena) (prev : Option ℕ) (target : ℕ) : Arena :=
  match prev with
  | none => { s with freeHead := target }
  | some q => s.setHdr q fun h => { h with nextFree := target }

/-- `freelist_remove`. -/
def freelistRemove (s : Arena) (b : ℕ) : Option Arena :=
  let s := s.setHdr b fun h => { h with free := false }
  if s.freeHead = b then some (setLink s none (s.hdr b).nextFree)
  else
    (Linked.search (nextFree s) (fun p => (s.hdr p).nextFree == b) addressSpace (toPtr s.freeHead)).map
      fun p => match p with
        | none => s
        | some p => setLink s (some p) (s.hdr b).nextFree

/-! ### Growth and splitting -/

/-- The blocks of the arena, by a walk from `arena_start`. -/
def arenaBlocks (s : Arena) : Option (List ℕ) :=
  Linked.nodes (nextPhys s) addressSpace (if s.arenaStart < s.arenaEnd then some s.arenaStart else none)

/-- The last block of the arena, as `grow_arena` finds it. -/
def lastBlock (s : Arena) : Option ℕ := (arenaBlocks s).map fun l => l.getLast?.getD s.arenaStart

/-- `grow_arena`, with what `sys_sbrk` returns; the result says whether it
succeeded. -/
def growArena (s : Arena) (bytes : ℕ) (raw : Option ℕ) : Option (Bool × Arena) :=
  let rounded := (bytes + 4095) % 2 ^ 32 / 4096 * 4096
  match raw with
  | none => some (false, s)
  | some b =>
      let s := s.setHdr b fun _ => ⟨rounded, 0, 0, true⟩
      let stitched :=
        if s.arenaStart = 0 then some { s with arenaStart := b }
        else if s.arenaEnd = b then
          (lastBlock s).map fun last => s.setHdr b fun h => { h with prevSize := (s.hdr last).size }
        else some s
      stitched.map fun s => (true, freelistInsert { s with arenaEnd := b + rounded } b)

/-- The part of `maybe_split` that cuts the block at `b` behind its first `needed`
bytes. -/
def cutBlock (s : Arena) (b needed : ℕ) : Arena :=
  let tail := b + needed
  let s := s.setHdr tail fun _ => ⟨(s.hdr b).size - needed, needed, 0, true⟩
  let s := s.setHdr b fun h => { h with size := needed }
  match nextPhys s tail with
  | none => s
  | some after => s.setHdr after fun h => { h with prevSize := (s.hdr tail).size }

/-- `maybe_split`. -/
def maybeSplit (s : Arena) (b needed : ℕ) : Arena :=
  if (s.hdr b).size < needed + minBlock then s
  else freelistInsert (cutBlock s b needed) (b + needed)

/-! ### The functions -/

/-- The bytes of a block for `nbytes`, in `uint32_t`. -/
def neededBytes (nbytes : ℕ) : ℕ := (nbytes + hdrSize + 7) / 8 * 8 % 2 ^ 32

/-- The scan of `malloc`: the first block of the free list that is large enough is
taken. -/
def mallocFit (s : Arena) (needed : ℕ) : Option (Option (ℕ × Arena)) :=
  (Linked.searchPrev (nextFree s) (fun b => decide (needed ≤ (s.hdr b).size)) addressSpace none
    (toPtr s.freeHead)).map fun found => found.map fun r =>
      let s := setLink s r.1 (s.hdr r.2).nextFree
      let s := s.setHdr r.2 fun h => { h with free := false }
      (r.2 + hdrSize, maybeSplit s r.2 needed)

/-- `malloc`, which calls itself after `grow_arena`, for a number of calls. -/
def mallocCalls (nbytes : ℕ) (raw : Option ℕ) : ℕ → Arena → Option (ℕ × Arena)
  | 0, _ => none
  | calls + 1, s =>
      if nbytes = 0 then some (0, s)
      else
        match mallocFit s (neededBytes nbytes) with
        | none => none
        | some (some r) => some r
        | some none =>
            match growArena s (neededBytes nbytes) raw with
            | none => none
            | some (false, s) => some (0, s)
            | some (true, s) => mallocCalls nbytes raw calls s

/-- `malloc`: the pointer, `0` for null.  `raw` is what `sys_sbrk` returns.  It is called again only
after a call for no bytes, which moves nothing, and returns the same then. -/
def malloc (s : Arena) (nbytes : ℕ) (raw : Option ℕ) : Option (ℕ × Arena) := mallocCalls nbytes raw addressSpace s

/-- The block at `a` takes in the block at `c` behind it, and the block behind that
one gets the new size. -/
def absorbBlock (s : Arena) (a c : ℕ) : Arena :=
  let s := s.setHdr a fun h => { h with size := (h.size + (s.hdr c).size) % 2 ^ 32 }
  match nextPhys s a with
  | none => s
  | some after => s.setHdr after fun h => { h with prevSize := (s.hdr a).size }

/-- The part of `free` that merges with the block behind. -/
def coalesceNext (s : Arena) (b : ℕ) : Option Arena :=
  match nextPhys s b with
  | none => some s
  | some after =>
      if (s.hdr after).free then (freelistRemove s after).map fun s => absorbBlock s b after
      else some s

/-- The part of `free` that merges with the block before. -/
def coalescePrev (s : Arena) (b : ℕ) : Option Arena :=
  if (s.hdr b).prevSize = 0 then some s
  else
    let prev := b - (s.hdr b).prevSize
    if (s.hdr prev).free then
      (freelistRemove s b).bind fun s => (freelistRemove s prev).map fun s =>
        freelistInsert (absorbBlock s prev b) prev
    else some s

/-- `free`. -/
def free (s : Arena) (ptr : ℕ) : Option Arena :=
  if ptr = 0 then some s
  else
    let b := ptr - hdrSize
    if (s.hdr b).free then some s
    else (coalesceNext (freelistInsert s b) b).bind fun s => coalescePrev s b

/-- `memcpy` between ranges that do not overlap. -/
def memcpy (mem : Cells) (dst src n : ℕ) : Cells := fun x =>
  if dst ≤ x ∧ x < dst + n then mem (src + (x - dst)) else mem x

/-- `memset` with zero. -/
def memset (mem : Cells) (dst n : ℕ) : Cells := fun x => if dst ≤ x ∧ x < dst + n then 0 else mem x

/-- `calloc`. -/
def calloc (s : Arena) (n sz : ℕ) (raw : Option ℕ) : Option (ℕ × Arena) :=
  let total := n * sz % 2 ^ 32
  (malloc s total raw).map fun r =>
    if r.1 = 0 then r else (r.1, { r.2 with mem := memset r.2.mem r.1 total })

/-- `realloc`. -/
def realloc (s : Arena) (ptr nbytes : ℕ) (raw : Option ℕ) : Option (ℕ × Arena) :=
  if ptr = 0 then malloc s nbytes raw
  else if nbytes = 0 then (free s ptr).map fun s => (0, s)
  else
    let payload := (s.hdr (ptr - hdrSize)).size - hdrSize
    if nbytes ≤ payload then some (ptr, s)
    else (malloc s nbytes raw).bind fun r =>
      if r.1 = 0 then some (0, r.2)
      else (free { r.2 with mem := memcpy r.2.mem r.1 ptr payload } ptr).map fun s => (r.1, s)

end LighthOS
