/-
# Operations on a user address space

What the kernel does to the user half of an address space outside `vmm.c`: the
memory system calls `SYS_MMAP_ANON`, `SYS_MPROTECT` and `SYS_VGA_GFX` of
`src/kernel/syscall.c` and `duplicate_user_space` of `src/kernel/process.c`.
Addresses and lengths are 64-bit numbers, so sums are taken modulo `2^64`.

The kernel reads and writes a physical frame through the HHDM
(`phys_to_virt_low`), which covers the first GiB; an access past it is a page
fault in the kernel, which halts the machine.
-/

import LighthOS.Lib.Loop
import LighthOS.Mm.Vmm

namespace LighthOS

/-! ### Bytes -/

/-- `n` bytes from `off` on, read as a little-endian number. -/
def readLe (data : ℕ → UInt8) (off : ℕ) : ℕ → ℕ
  | 0 => 0
  | n + 1 => (data off).toNat + 256 * readLe data (off + 1) n

theorem readLe_lt (data : ℕ → UInt8) (off n : ℕ) : readLe data off n < 256 ^ n := by
  induction n generalizing off with
  | zero => simp [readLe]
  | succ n ih =>
      have := ih (off + 1)
      have := (data off).toNat_lt
      rw [readLe, pow_succ]
      omega

/-- Byte `k` of a word. -/
def byteOf (w : U64) (k : ℕ) : UInt8 := UInt8.ofNat (w >>> (8 * k)).toNat

/-- The word with the given bytes. -/
def wordOfBytes (b : ℕ → UInt8) : U64 := BitVec.ofNat 64 (readLe b 0 8)

/-- Store the bytes `src 0 .. src (n - 1)` at the physical address `phys`. -/
def Vm.store (s : Vm) (phys n : ℕ) (src : ℕ → UInt8) : Vm :=
  { s with mem := fun f i =>
      let a := f * pageSize + 8 * i
      if i < 512 ∧ a < phys + n ∧ phys < a + 8 then
        wordOfBytes fun k =>
          if phys ≤ a + k ∧ a + k < phys + n then src (a + k - phys) else byteOf (s.mem f i) k
      else s.mem f i }

/-- The same through `phys_to_virt_low`: the HHDM covers the bytes, or the machine
halts. -/
def Vm.storeLow (s : Vm) (phys n : ℕ) (src : ℕ → UInt8) : Option Vm :=
  if phys + n ≤ hhdmFrames * pageSize then some (s.store phys n src) else none

/-- Store `n` bytes at the virtual address `va` of an address space, through the
mapping of its page; whether there was one.  The loops over bytes and words of
`src/kernel/process.c` store so. -/
def putUser (s : Vm) (pml4 va n : ℕ) (src : ℕ → UInt8) : Option (Bool × Vm) :=
  let page := va / pageSize * pageSize
  let phys := vmmGetPhysicalIn s pml4 page
  if phys = 0 then some (false, s)
  else (s.storeLow (phys + (va - page)) n src).map fun s => (true, s)

/-! ### The memory system calls -/

/-- `pmm_alloc_frame` and a `memset` of the frame; the frame `0` where there is
none. -/
def allocPage (s : Vm) : Option (ℕ × Vm) :=
  let r := pmmAllocFrame s.pmm
  if r.1 = 0 then some (0, { s with pmm := r.2 })
  else if hhdmFrames ≤ r.1 then none
  else some (r.1, { s with pmm := r.2 }.zero r.1)

/-- Map a zeroed page at `va`; whether there was memory for it. -/
def mapZeroPage (pml4 : ℕ) (flags : U64) (va : ℕ) (s : Vm) : Option (Bool × Vm) :=
  match allocPage s with
  | none => none
  | some (0, s) => some (false, s)
  | some (f, s) => (vmmMapIn s pml4 va (frameAddr f) flags).map fun s => (true, s)

/-- `a & ~(PAGE_SIZE - 1)`. -/
def pageDown (a : ℕ) : ℕ := a / pageSize * pageSize

/-- `(a + PAGE_SIZE - 1) & ~(PAGE_SIZE - 1)`. -/
def pageUp (a : ℕ) : ℕ := pageDown ((a + pageSize - 1) % 2 ^ 64)

/-- The values of `va` in `for (va = start; va < stop; va += PAGE_SIZE)`. -/
def pageRange (start stop : ℕ) : List ℕ :=
  (List.range ((stop - start + pageSize - 1) / pageSize)).map fun i => start + i * pageSize

/-- The flags of `SYS_MMAP_ANON` and `SYS_MPROTECT` for `prot`. -/
def protFlags (prot : U64) : U64 :=
  if hasFlag prot 2 then vmmFlagUser ||| vmmFlagWrite else vmmFlagUser

/-- The pages of a request for `len` bytes at `addr`. -/
def requestPages (addr len : ℕ) : List ℕ :=
  pageRange (pageDown addr) ((pageDown addr + pageUp len) % 2 ^ 64)

/-- `SYS_MMAP_ANON` in the address space `pml4`: the address returned, none for
`-1`. -/
def mmapAnon (s : Vm) (pml4 addr len : ℕ) (prot : U64) : Option (Option ℕ × Vm) :=
  if pageUp len = 0 ∨ pageDown addr = 0 then some (none, s)
  else if pml4 = 0 then some (none, s)
  else if (requestPages addr len).any fun va => vmmGetPhysicalIn s pml4 va ≠ 0 then some (none, s)
  else match Loop.run (mapZeroPage pml4 (protFlags prot)) (requestPages addr len) s with
    | none => none
    | some (false, s) => some (none, s)
    | some (true, s) => some (some (pageDown addr), s)

/-- `SYS_MPROTECT`: whether it succeeded (`0` against `-1`). -/
def mprotect (s : Vm) (pml4 addr len : ℕ) (prot : U64) : Option (Bool × Vm) :=
  if pml4 = 0 then some (false, s)
  else Loop.run (fun va s => some (vmmSetFlagsIn s pml4 va (protFlags prot)))
    (requestPages addr len) s

/-- `VGA_MODE13_PHYS / PAGE_SIZE`. -/
abbrev vgaMode13Frame : ℕ := 0xA0

/-- `VGA_MODE13_PAGES`. -/
abbrev vgaMode13Pages : ℕ := 16

/-- The pages that `SYS_VGA_GFX` maps for the address `va`. -/
def vgaPages (va : ℕ) : List (ℕ × ℕ) :=
  (List.range vgaMode13Pages).map fun i =>
    ((pageDown va + i * pageSize) % 2 ^ 64, vgaMode13Frame + i)

/-- `SYS_VGA_GFX`, as far as it touches memory: the address returned, none for
`-1`. -/
def vgaGfx (s : Vm) (pml4 va : ℕ) : Option (Option ℕ × Vm) :=
  if pageDown va = 0 then some (none, s)
  else if pml4 = 0 then some (none, s)
  else
    let body (p : ℕ × ℕ) (s : Vm) :=
      (vmmMapIn s pml4 p.1 (frameAddr p.2) (vmmFlagPresent ||| vmmFlagWrite ||| vmmFlagUser)).map
        fun s => (true, s)
    (Loop.run body (vgaPages va) s).map fun r => (some (pageDown va), r.2)

/-! ### `duplicate_user_space` -/

/-- `memcpy` of one frame to another. -/
def Vm.copyFrame (s : Vm) (dst src : ℕ) : Vm :=
  { s with mem := fun f i => if f = dst then s.mem src i else s.mem f i }

/-- The body of the innermost loop: a copy of the page behind the entry `e1`,
mapped at `va` in the child. -/
def duplicatePage (child va : ℕ) (e1 : U64) (s : Vm) : Option (Bool × Vm) :=
  let r := pmmAllocFrame s.pmm
  if r.1 = 0 then some (false, { s with pmm := r.2 })
  else if hhdmFrames ≤ r.1 ∨ hhdmFrames ≤ entryFrame e1 then none
  else (vmmMapIn ({ s with pmm := r.2 }.copyFrame r.1 (entryFrame e1)) child va (frameAddr r.1)
    (e1 &&& lowFlagMask)).map fun s => (true, s)

/-- The loop over the entries of a leaf table. -/
def duplicatePt (child pt va : ℕ) : Vm → Option (Bool × Vm) :=
  Loop.run (fun i s =>
    if !hasFlag (s.mem pt i) vmmFlagPresent then some (true, s)
    else duplicatePage child (va + i * 2 ^ 12) (s.mem pt i) s) (List.range tableEntries)

/-- The loop over the entries of a directory. -/
def duplicatePd (child pd va : ℕ) : Vm → Option (Bool × Vm) :=
  Loop.run (fun i s =>
    if !hasFlag (s.mem pd i) vmmFlagPresent || hasFlag (s.mem pd i) vmmFlagHuge then some (true, s)
    else duplicatePt child (entryFrame (s.mem pd i)) (va + i * 2 ^ 21) s) (List.range tableEntries)

/-- The loop over the entries of a third-level table. -/
def duplicatePdpt (child pdpt va : ℕ) : Vm → Option (Bool × Vm) :=
  Loop.run (fun i s =>
    if !hasFlag (s.mem pdpt i) vmmFlagPresent || hasFlag (s.mem pdpt i) vmmFlagHuge then some (true, s)
    else duplicatePd child (entryFrame (s.mem pdpt i)) (va + i * 2 ^ 30) s) (List.range tableEntries)

/-- `duplicate_user_space`: whether there was memory for all pages. -/
def duplicateUserSpace (s : Vm) (parent child : ℕ) : Option (Bool × Vm) :=
  Loop.run (fun i s =>
    if !hasFlag (s.mem parent i) vmmFlagPresent then some (true, s)
    else duplicatePdpt child (entryFrame (s.mem parent i)) (i * 2 ^ 39) s)
    (List.range (tableEntries / 2)) s

end LighthOS
