/-
# The physical memory manager

`src/mm/pmm.c`: one bit per 4 KiB frame, set where the frame is in use.  The
bitmap is a function of the frame number; the two nested scans of
`pmm_alloc_frame`, over words and over the bits of a word, are one scan over the
`32 * bitmap_words` bits.  The multiboot memory map and module list are lists:
the pointer walk that reads them is left out.
-/

import LighthOS.Mm.Entry

namespace LighthOS

/-- The state of `pmm.c`. -/
structure Pmm where
  bitmap : ℕ → Bool
  bitmapWords : ℕ
  totalFrames : ℕ
  usedFrames : ℕ

/-- `bitmap_set` with its count, where the bit is clear; otherwise nothing. -/
def Pmm.reserve (p : Pmm) (f : ℕ) : Pmm :=
  if p.bitmap f then p
  else { p with bitmap := Function.update p.bitmap f true, usedFrames := p.usedFrames + 1 }

/-- Reserve `n` frames from `first` on: the loops of `pmm_init` and
`pmm_reserve_range`. -/
def Pmm.reserveFrom (p : Pmm) (first n : ℕ) : Pmm := (List.range' first n).foldl Pmm.reserve p

/-- `bitmap_clear` with its count, where the bit is set; otherwise nothing. -/
def Pmm.release (p : Pmm) (f : ℕ) : Pmm :=
  if p.bitmap f then
    { p with bitmap := Function.update p.bitmap f false, usedFrames := p.usedFrames - 1 }
  else p

/-- `pmm_alloc_frame`: the lowest clear bit, set; the result is a frame number,
`0` for failure. -/
def pmmAllocFrame (p : Pmm) : ℕ × Pmm :=
  match (List.range (32 * p.bitmapWords)).find? fun f => !p.bitmap f with
  | none => (0, p)
  | some f =>
      if p.totalFrames ≤ f then (0, p)
      else (f, { p with bitmap := Function.update p.bitmap f true, usedFrames := p.usedFrames + 1 })

/-- `pmm_free_frame` of the frame at address `f * PAGE_SIZE`. -/
def pmmFreeFrame (p : Pmm) (f : ℕ) : Pmm :=
  let frame := f % 2 ^ 32
  if frame < p.totalFrames then p.release frame else p

/-- `pmm_reserve_range`. -/
def pmmReserveRange (p : Pmm) (start size : ℕ) : Pmm :=
  let first := start / pageSize % 2 ^ 32
  let last := (start + size + pageSize - 1) % 2 ^ 64 / pageSize % 2 ^ 32
  p.reserveFrom first (min last p.totalFrames - first)

/-- An entry of the multiboot memory map. -/
structure MmapEntry where
  addr : ℕ
  len : ℕ
  available : Bool

/-- What `pmm_init` reads of the multiboot information: the memory map and the
modules (start, end) where their flags are set, the address of the module list,
and the upper memory in KiB. -/
structure Multiboot where
  mmap : Option (List MmapEntry)
  memUpper : ℕ
  mods : Option (List (ℕ × ℕ))
  modsAddr : ℕ

/-- Where memory ends: `mem_end`, capped to 4 GiB. -/
def memEnd (mbi : Multiboot) : ℕ :=
  let e := match mbi.mmap with
    | none => (mbi.memUpper + 1024) * 1024
    | some l => l.foldl
        (fun e r => if r.available ∧ e < (r.addr + r.len) % 2 ^ 64 then (r.addr + r.len) % 2 ^ 64 else e) 0
  min e 0x100000000

/-- Clear the frames of one available region. -/
def pmmFreeRegion (p : Pmm) (r : MmapEntry) : Pmm :=
  if r.available then
    let start := (r.addr + pageSize - 1) % 2 ^ 64 / pageSize
    let stop := (r.addr + r.len) % 2 ^ 64 / pageSize
    (List.range' start (stop - start)).foldl
      (fun p f => if f % 2 ^ 32 < p.totalFrames then p.release (f % 2 ^ 32) else p) p
  else p

/-- The first frame past the kernel image and the bitmap behind it:
`bitmap_end_frame`, for the image that ends at `kernelEnd`
(`_kernel_phys_end`). -/
def bitmapEndFrame (kernelEnd bitmapWords : ℕ) : ℕ :=
  let bitmapPhys := (kernelEnd + pageSize - 1) / pageSize * pageSize
  (bitmapPhys + bitmapWords * 4 + pageSize - 1) / pageSize

/-- The frames of the first MiB, `0x100000 / PAGE_SIZE`. -/
def lowFrames : ℕ := 256

/-- Reserve a module: `pmm_reserve_range(start, end - start)`. -/
def pmmReserveModule (p : Pmm) (m : ℕ × ℕ) : Pmm :=
  pmmReserveRange p m.1 ((m.2 + 2 ^ 64 - m.1) % 2 ^ 64)

/-- The end of `pmm_init`: the modules and their list. -/
def pmmReserveModules (p : Pmm) (mbi : Multiboot) : Pmm :=
  match mbi.mods with
  | some (m :: l) =>
      pmmReserveRange ((m :: l).foldl pmmReserveModule p) mbi.modsAddr ((m :: l).length * 16)
  | _ => p

/-- The middle of `pmm_init`: clear the frames of the available regions, or all
frames without a memory map. -/
def pmmFreeAvailable (p : Pmm) (mbi : Multiboot) : Pmm :=
  match mbi.mmap with
  | some l => l.foldl pmmFreeRegion p
  | none => (List.range p.totalFrames).foldl Pmm.release p

/-- `pmm_init`. -/
def pmmInit (mbi : Multiboot) (kernelEnd : ℕ) : Pmm :=
  let total := memEnd mbi / pageSize
  let words := (total + 31) / 32
  let p := pmmFreeAvailable ⟨fun _ => true, words, total, total⟩ mbi
  let p := p.reserveFrom 0 lowFrames
  let p := p.reserveFrom lowFrames (bitmapEndFrame kernelEnd words - lowFrames)
  pmmReserveModules p mbi

/-! ### What each operation does to the bits -/

/-- **`pmm_alloc_frame` hands out a frame whose bit was clear**, and sets only
that bit. -/
theorem pmmAllocFrame_spec {p : Pmm} (h : (pmmAllocFrame p).1 ≠ 0) :
    p.bitmap (pmmAllocFrame p).1 = false ∧ (pmmAllocFrame p).1 < p.totalFrames ∧
      (pmmAllocFrame p).2.bitmap = Function.update p.bitmap (pmmAllocFrame p).1 true := by
  generalize hr : pmmAllocFrame p = r at h ⊢
  unfold pmmAllocFrame at hr
  split at hr
  · rw [← hr] at h
    exact absurd rfl h
  · next g hg =>
      split_ifs at hr with ht
      · rw [← hr] at h
        exact absurd rfl h
      · rw [← hr]
        exact ⟨by simpa using List.find?_some hg, by simpa using ht, rfl⟩

/-- `pmm_alloc_frame` clears no bit, also where it fails. -/
theorem pmmAllocFrame_mono {p : Pmm} {g : ℕ} (hg : p.bitmap g = true) :
    (pmmAllocFrame p).2.bitmap g = true := by
  unfold pmmAllocFrame
  split
  · exact hg
  · split_ifs
    · exact hg
    · simp only [Function.update_apply, hg, ite_self]

/-- `pmm_free_frame` clears no other bit. -/
theorem pmmFreeFrame_of_ne {p : Pmm} {f g : ℕ} (h : g ≠ f % 2 ^ 32) :
    (pmmFreeFrame p f).bitmap g = p.bitmap g := by
  unfold pmmFreeFrame Pmm.release
  simp only
  split_ifs
  · exact Function.update_of_ne h _ _
  all_goals rfl

theorem Pmm.reserve_mono {p : Pmm} {f g : ℕ} (hg : p.bitmap g = true) :
    (p.reserve f).bitmap g = true := by
  unfold Pmm.reserve
  split_ifs
  · exact hg
  · simp only [Function.update_apply, hg, ite_self]

theorem Pmm.reserve_totalFrames (p : Pmm) (f : ℕ) : (p.reserve f).totalFrames = p.totalFrames := by
  unfold Pmm.reserve
  split_ifs <;> rfl

/-- Reserving frames clears no bit. -/
theorem Pmm.reserveFrom_mono {p : Pmm} {first n g : ℕ} (hg : p.bitmap g = true) :
    (p.reserveFrom first n).bitmap g = true :=
  List.foldlRecOn (motive := fun p : Pmm => p.bitmap g = true) _ _ hg fun _ hp _ _ => reserve_mono hp

theorem Pmm.reserveFrom_totalFrames (p : Pmm) (first n : ℕ) :
    (p.reserveFrom first n).totalFrames = p.totalFrames :=
  List.foldlRecOn (motive := fun p' : Pmm => p'.totalFrames = p.totalFrames) _ _ rfl
    fun p' hp' f _ => (p'.reserve_totalFrames f).trans hp'

theorem pmmReserveRange_mono {p : Pmm} {start size g : ℕ} (hg : p.bitmap g = true) :
    (pmmReserveRange p start size).bitmap g = true :=
  Pmm.reserveFrom_mono hg

theorem pmmReserveModule_mono {p : Pmm} {m : ℕ × ℕ} {g : ℕ} (hg : p.bitmap g = true) :
    (pmmReserveModule p m).bitmap g = true := by
  rw [pmmReserveModule]
  exact pmmReserveRange_mono hg

theorem pmmReserveModules_mono {p : Pmm} {mbi : Multiboot} {g : ℕ} (hg : p.bitmap g = true) :
    (pmmReserveModules p mbi).bitmap g = true := by
  rw [pmmReserveModules]
  split
  · exact pmmReserveRange_mono (List.foldlRecOn (motive := fun p : Pmm => p.bitmap g = true) _ _ hg
      fun _ hp _ _ => pmmReserveModule_mono hp)
  · exact hg

end LighthOS
