/-
# The ELF loader

`src/kernel/elf.c`.  A file image is a function from offsets to bytes with its
size; the headers are read from the bytes at their packed offsets.  A function
that loads into an address space returns no state where the machine halts.  The
messages on the serial line are left out.
-/

import LighthOS.Mm.UserSpace

namespace LighthOS

/-- A file image. -/
structure Image where
  data : ℕ → UInt8
  size : ℕ

namespace Image

/-- The fields of `elf64_ehdr_t` that the loader reads. -/
def magic (f : Image) : ℕ := readLe f.data 0 4
def elfClass (f : Image) : ℕ := readLe f.data 4 1
def elfData (f : Image) : ℕ := readLe f.data 5 1
def eType (f : Image) : ℕ := readLe f.data 16 2
def eMachine (f : Image) : ℕ := readLe f.data 18 2
def eEntry (f : Image) : ℕ := readLe f.data 24 8
def ePhoff (f : Image) : ℕ := readLe f.data 32 8
def ePhentsize (f : Image) : ℕ := readLe f.data 54 2
def ePhnum (f : Image) : ℕ := readLe f.data 56 2

end Image

/-- The fields of `elf64_phdr_t` that the loader reads. -/
structure Phdr where
  pType : ℕ
  pOffset : ℕ
  pVaddr : ℕ
  pFilesz : ℕ
  pMemsz : ℕ

/-- Program header `i`. -/
def Image.phdr (f : Image) (i : ℕ) : Phdr :=
  let off := f.ePhoff + i * f.ePhentsize
  ⟨readLe f.data off 4, readLe f.data (off + 8) 8, readLe f.data (off + 16) 8,
    readLe f.data (off + 32) 8, readLe f.data (off + 40) 8⟩

/-- `elf_validate`. -/
def elfValidate (f : Image) : Bool :=
  let phEnd := (f.ePhoff + f.ePhnum * f.ePhentsize) % 2 ^ 64
  64 ≤ f.size && f.magic == 0x464C457F && f.elfClass == 2 && f.elfData == 1 &&
    (f.eType == 2 || f.eType == 3) && f.eMachine == 62 && f.ePhoff != 0 && f.ePhnum != 0 &&
    56 ≤ f.ePhentsize && f.ePhoff ≤ phEnd && phEnd ≤ f.size

/-- `USER_VA_MIN`. -/
abbrev userVaMin : ℕ := 0x10000

/-- `USER_VA_MAX`. -/
abbrev userVaMax : ℕ := 0x7FFFFFFFFFFF

/-- The loop of `write_into_pml4` and `zero_into_pml4`: store `n` bytes of `src`,
from `pos` on, at the virtual address `vaddr`, page by page.  Every round stores
a byte or more, so `n` rounds suffice. -/
def fillPml4 (pml4 : ℕ) (src : ℕ → UInt8) : ℕ → ℕ → ℕ → ℕ → Vm → Option Vm
  | 0, _, _, _, s => some s
  | fuel + 1, vaddr, pos, n, s =>
      if n = 0 then some s
      else
        let chunk := min (pageSize - vaddr % pageSize) n
        match putUser s pml4 vaddr chunk fun k => src (pos + k) with
        | none => none
        | some (false, s) => some s
        | some (true, s) => fillPml4 pml4 src fuel (vaddr + chunk) (pos + chunk) (n - chunk) s

/-- `write_into_pml4`. -/
def writeIntoPml4 (s : Vm) (pml4 vaddr : ℕ) (src : ℕ → UInt8) (n : ℕ) : Option Vm :=
  fillPml4 pml4 src n vaddr 0 n s

/-- `zero_into_pml4`. -/
def zeroIntoPml4 (s : Vm) (pml4 vaddr n : ℕ) : Option Vm :=
  fillPml4 pml4 (fun _ => 0) n vaddr 0 n s

/-- The page loop of one segment: a fresh page wherever none is mapped. -/
def mapSegmentPage (pml4 a : ℕ) (s : Vm) : Option (Bool × Vm) :=
  if vmmGetPhysicalIn s pml4 a ≠ 0 then some (true, s)
  else mapZeroPage pml4 (vmmFlagWrite ||| vmmFlagUser) a s

/-- The checks of `elf_load_at` on a segment to be loaded. -/
def segmentOk (f : Image) (loadBase : ℕ) (ph : Phdr) : Bool :=
  let vaddr := (ph.pVaddr + loadBase) % 2 ^ 64
  ph.pOffset ≤ (ph.pOffset + ph.pFilesz) % 2 ^ 64 && (ph.pOffset + ph.pFilesz) % 2 ^ 64 ≤ f.size &&
    ph.pFilesz ≤ ph.pMemsz && ph.pVaddr ≤ vaddr && userVaMin ≤ vaddr &&
    vaddr ≤ (vaddr + ph.pMemsz) % 2 ^ 64 && (vaddr + ph.pMemsz) % 2 ^ 64 ≤ userVaMax

/-- The bytes of a segment whose pages are mapped: those of the file, then
zeros. -/
def fillSegment (f : Image) (s : Vm) (pml4 vaddr : ℕ) (ph : Phdr) : Option Vm :=
  (if 0 < ph.pFilesz then
    writeIntoPml4 s pml4 vaddr (fun k => f.data (ph.pOffset + k)) ph.pFilesz
  else some s).bind fun s =>
  if ph.pFilesz < ph.pMemsz then
    zeroIntoPml4 s pml4 (vaddr + ph.pFilesz) (ph.pMemsz - ph.pFilesz)
  else some s

/-- The body of the loop of `elf_load_at`; it stops where the source returns
`0`. -/
def loadSegment (f : Image) (pml4 loadBase : ℕ) (i : ℕ) (s : Vm) : Option (Bool × Vm) :=
  let ph := f.phdr i
  if ph.pType ≠ 1 ∨ ph.pMemsz = 0 then some (true, s)
  else if !segmentOk f loadBase ph then some (false, s)
  else
    let vaddr := (ph.pVaddr + loadBase) % 2 ^ 64
    let vstart := pageDown vaddr
    let vend := pageUp (vaddr + ph.pMemsz)
    match Loop.run (mapSegmentPage pml4) (pageRange vstart vend) s with
    | none => none
    | some (false, s) => some (false, s)
    | some (true, s) => (fillSegment f s pml4 vaddr ph).map fun s => (true, s)

/-- `elf_load_at`: the entry point, `0` for failure. -/
def elfLoadAt (f : Image) (s : Vm) (pml4 loadBase : ℕ) : Option (ℕ × Vm) :=
  if pml4 = 0 then some (0, s)
  else if !elfValidate f then some (0, s)
  else match Loop.run (loadSegment f pml4 loadBase) (List.range f.ePhnum) s with
    | none => none
    | some (false, s) => some (0, s)
    | some (true, s) => some ((f.eEntry + loadBase) % 2 ^ 64, s)

/-- `elf_load`. -/
def elfLoad (f : Image) (s : Vm) (pml4 : ℕ) : Option (ℕ × Vm) := elfLoadAt f s pml4 0

/-- `elf_find_interp`: the path of the first `PT_INTERP` header, without its
trailing zero bytes, cut to `cap - 1` bytes; none where the source returns
`0`. -/
def elfFindInterp (f : Image) (cap : ℕ) : Option (List UInt8) :=
  if cap = 0 || !elfValidate f then none
  else match (List.range f.ePhnum).find? fun i => (f.phdr i).pType = 3 with
    | none => none
    | some i =>
        let ph := f.phdr i
        if (ph.pOffset + ph.pFilesz) % 2 ^ 64 < ph.pOffset then none
        else if f.size < (ph.pOffset + ph.pFilesz) % 2 ^ 64 then none
        else if ph.pFilesz = 0 then none
        else
          let n := if cap ≤ ph.pFilesz then cap - 1 else ph.pFilesz
          let out := ((List.range n).map fun k => f.data (ph.pOffset + k)).reverse.dropWhile (· == 0)
          if out = [] then none else some out.reverse

/-- `elf_phdr_vaddr`. -/
def elfPhdrVaddr (f : Image) : ℕ :=
  if !elfValidate f then 0
  else match (List.range f.ePhnum).find? fun i =>
      let ph := f.phdr i
      ph.pType = 1 ∧ ph.pOffset ≤ f.ePhoff ∧ f.ePhoff < (ph.pOffset + ph.pFilesz) % 2 ^ 64 with
    | none => 0
    | some i => ((f.phdr i).pVaddr + (f.ePhoff - (f.phdr i).pOffset)) % 2 ^ 64

end LighthOS
