/-
# Four-level paging

`src/mm/vmm.c`.  The machine's memory is read in 64-bit words, `mem f i` being
word `i` of frame `f`: a page table is a frame read so, and so is a user page.
A pointer to a table is the number of its frame and a pointer to an entry is a
frame and an index; the frame `0`, which the PMM never hands out, stands for a
null pointer.

A function of `vmm.c` that can `panic` returns `none` there: the machine halts
and no later state exists.  The TLB (`invlpg`, the writes to `cr3`) is left out.
-/

import LighthOS.Mm.Pmm

namespace LighthOS

/-- Physical memory, the frame allocator and `kernel_pml4`. -/
structure Vm where
  mem : ℕ → ℕ → U64
  pmm : Pmm
  kernelPml4 : ℕ

/-- The frames below `KERNEL_DIRECT_MAP_LIMIT`, 64 MiB. -/
abbrev directMapFrames : ℕ := 0x4000

/-- The frames the HHDM reaches, 1 GiB. -/
abbrev hhdmFrames : ℕ := 0x40000

namespace Vm

/-- Store one word. -/
def write (s : Vm) (f i : ℕ) (e : U64) : Vm :=
  { s with mem := fun f' i' => if f' = f ∧ i' = i then e else s.mem f' i' }

/-- `memset(frame, 0, PAGE_SIZE)`. -/
def zero (s : Vm) (f : ℕ) : Vm :=
  { s with mem := fun f' i' => if f' = f then 0 else s.mem f' i' }

end Vm

/-- `alloc_table`: a zeroed frame below the direct-map limit, or panic. -/
def allocTable (s : Vm) : Option (ℕ × Vm) :=
  let r := pmmAllocFrame s.pmm
  if r.1 = 0 then none
  else if directMapFrames ≤ r.1 then none
  else some (r.1, { s with pmm := r.2 }.zero r.1)

/-- `mid_flags` of `walk_create`. -/
def midFlags (user : Bool) : U64 :=
  vmmFlagPresent ||| vmmFlagWrite ||| (if user then vmmFlagUser else 0)

/-- One level of `walk_create`: allocate the table below entry `i` of table `t`
where there is none, and otherwise add the USER bit that a user walk needs.
Returns the entry as it then is. -/
def ensureEntry (s : Vm) (t i : ℕ) (user : Bool) : Option (U64 × Vm) :=
  let e := s.mem t i
  if hasFlag e vmmFlagPresent then
    if user then some (e ||| vmmFlagUser, s.write t i (e ||| vmmFlagUser)) else some (e, s)
  else
    match allocTable s with
    | none => none
    | some (f, s) => some (frameAddr f ||| midFlags user, s.write t i (frameAddr f ||| midFlags user))

/-- `walk_create`: the entry of `va`, its tables created on the way, or no entry
where a huge page is in the way. -/
def walkCreate (s : Vm) (pml4 va : ℕ) (user : Bool) : Option (Option (ℕ × ℕ) × Vm) := do
  let (pml4e, s) ← ensureEntry s pml4 (pml4Idx va) user
  let (pdpte, s) ← ensureEntry s (entryFrame pml4e) (pdptIdx va) user
  if hasFlag pdpte vmmFlagHuge then return (none, s)
  let (pde, s) ← ensureEntry s (entryFrame pdpte) (pdIdx va) user
  if hasFlag pde vmmFlagHuge then return (none, s)
  return (some (entryFrame pde, ptIdx va), s)

/-- `walk_lookup`: the entry of `va`, or none where a level is missing. -/
def walkLookup (s : Vm) (pml4 va : ℕ) : Option (ℕ × ℕ) :=
  let e := s.mem pml4 (pml4Idx va)
  if !hasFlag e vmmFlagPresent then none
  else
    let e := s.mem (entryFrame e) (pdptIdx va)
    if !hasFlag e vmmFlagPresent then none
    else if hasFlag e vmmFlagHuge then none
    else
      let e := s.mem (entryFrame e) (pdIdx va)
      if !hasFlag e vmmFlagPresent then none
      else if hasFlag e vmmFlagHuge then none
      else some (entryFrame e, ptIdx va)

/-- A leaf entry, as `vmm_map_in` and `vmm_set_flags_in` build it. -/
def leafEntry (addr flags : U64) : U64 :=
  (addr &&& pteAddrMask) ||| (flags &&& lowFlagMask) ||| (flags &&& vmmFlagNx) ||| vmmFlagPresent

/-- `vmm_map_in`. -/
def vmmMapIn (s : Vm) (pml4 virt : ℕ) (phys flags : U64) : Option Vm :=
  match walkCreate s pml4 virt (hasFlag flags vmmFlagUser) with
  | none => none
  | some (none, s) => some s
  | some (some (t, i), s) => some (s.write t i (leafEntry phys flags))

/-- `vmm_unmap_in`. -/
def vmmUnmapIn (s : Vm) (pml4 virt : ℕ) : Vm :=
  match walkLookup s pml4 virt with
  | none => s
  | some (t, i) => s.write t i 0

/-- `vmm_get_physical_in`. -/
def vmmGetPhysicalIn (s : Vm) (pml4 virt : ℕ) : ℕ :=
  match walkLookup s pml4 virt with
  | none => 0
  | some (t, i) =>
      if hasFlag (s.mem t i) vmmFlagPresent then
        ((s.mem t i &&& pteAddrMask) ||| BitVec.ofNat 64 (virt % pageSize)).toNat
      else 0

/-- `vmm_set_flags_in`: whether it succeeded (`0` against `-1`). -/
def vmmSetFlagsIn (s : Vm) (pml4 virt : ℕ) (flags : U64) : Bool × Vm :=
  match walkLookup s pml4 virt with
  | none => (false, s)
  | some (t, i) =>
      if hasFlag (s.mem t i) vmmFlagPresent then (true, s.write t i (leafEntry (s.mem t i) flags))
      else (false, s)

/-- `vmm_new_pml4`: a table with the kernel half of `kernel_pml4`, or the null
pointer without memory. -/
def vmmNewPml4 (s : Vm) : Option (ℕ × Vm) :=
  let r := pmmAllocFrame s.pmm
  if r.1 = 0 then some (0, { s with pmm := r.2 })
  else if directMapFrames ≤ r.1 then none
  else some (r.1, { s with
    pmm := r.2
    mem := fun f i => if f = r.1 then (if 256 ≤ i ∧ i < 512 then s.mem s.kernelPml4 i else 0)
      else s.mem f i })

/-- `install_huge_2m`. -/
def hugeEntry (phys : ℕ) (flags : U64) : U64 :=
  BitVec.ofNat 64 (phys / 0x200000 * 0x200000) ||| flags ||| vmmFlagPresent ||| vmmFlagHuge

/-- The loop of `vmm_init` that fills the first `n` entries of the directory `pd`
with 2 MiB pages. -/
def installHhdm (s : Vm) (pd n : ℕ) : Vm :=
  (List.range n).foldl
    (fun s i => s.write pd i (hugeEntry (i * 0x200000) (vmmFlagWrite ||| vmmFlagGlobal))) s

/-- `vmm_init`: the kernel PML4 with the HHDM at slot 256 and the kernel image at
slot 511, both on one directory of 2 MiB pages. -/
def vmmInit (s : Vm) : Option Vm := do
  let (kernelPml4, s) ← allocTable s
  let (pdptHhdm, s) ← allocTable s
  let (pdHhdm, s) ← allocTable s
  let s := s.write pdptHhdm 0 (frameAddr pdHhdm ||| vmmFlagPresent ||| vmmFlagWrite)
  let s := installHhdm s pdHhdm 512
  let s := s.write kernelPml4 256 (frameAddr pdptHhdm ||| vmmFlagPresent ||| vmmFlagWrite)
  let (pdptHigh, s) ← allocTable s
  let s := s.write pdptHigh 510 (frameAddr pdHhdm ||| vmmFlagPresent ||| vmmFlagWrite)
  let s := s.write kernelPml4 511 (frameAddr pdptHigh ||| vmmFlagPresent ||| vmmFlagWrite)
  return { s with kernelPml4 := kernelPml4 }

/-- The number of entries of a table. -/
def tableEntries : ℕ := 512

/-- The inner loops of `free_user_subtree`: free what the entries of table `t`
point to, `level` levels of tables below it, the tables after their contents. -/
def freeSubtree (m : ℕ → ℕ → U64) : ℕ → Pmm → ℕ → Pmm
  | 0, p, t => (List.range tableEntries).foldl (fun p i =>
      if hasFlag (m t i) vmmFlagPresent then pmmFreeFrame p (entryFrame (m t i)) else p) p
  | level + 1, p, t => (List.range tableEntries).foldl (fun p i =>
      if hasFlag (m t i) vmmFlagPresent then
        if hasFlag (m t i) vmmFlagHuge then pmmFreeFrame p (entryFrame (m t i))
        else pmmFreeFrame (freeSubtree m level p (entryFrame (m t i))) (entryFrame (m t i))
      else p) p

/-- One round of `free_user_subtree`: entry `i` of the PML4. -/
def freeUserEntry (pml4 : ℕ) (s : Vm) (i : ℕ) : Vm :=
  let e := s.mem pml4 i
  if hasFlag e vmmFlagPresent then
    { s with pmm := pmmFreeFrame (freeSubtree s.mem 2 s.pmm (entryFrame e)) (entryFrame e) }.write
      pml4 i 0
  else s

/-- `free_user_subtree`. -/
def freeUserSubtree (s : Vm) (pml4 : ℕ) : Vm :=
  (List.range (tableEntries / 2)).foldl (freeUserEntry pml4) s

/-- `vmm_free_pml4`. -/
def vmmFreePml4 (s : Vm) (pml4 : ℕ) : Vm :=
  if pml4 = 0 ∨ pml4 = s.kernelPml4 then s
  else
    let s := freeUserSubtree s pml4
    { s with pmm := pmmFreeFrame s.pmm pml4 }

/-- `vmm_unmap_user_space`. -/
def vmmUnmapUserSpace (s : Vm) (pml4 : ℕ) : Vm :=
  if pml4 = 0 then s else freeUserSubtree s pml4

/-- `page_user_accessible`. -/
def pageUserAccessible (s : Vm) (pml4 va : ℕ) (write : Bool) : Bool :=
  let user (e : U64) := hasFlag e vmmFlagPresent && hasFlag e vmmFlagUser
  let writable (e : U64) := !write || hasFlag e vmmFlagWrite
  let e := s.mem pml4 (pml4Idx va)
  if !user e then false
  else
    let e := s.mem (entryFrame e) (pdptIdx va)
    if !user e then false
    else if hasFlag e vmmFlagHuge then writable e
    else
      let e := s.mem (entryFrame e) (pdIdx va)
      if !user e then false
      else if hasFlag e vmmFlagHuge then writable e
      else
        let e := s.mem (entryFrame e) (ptIdx va)
        user e && writable e

end LighthOS
