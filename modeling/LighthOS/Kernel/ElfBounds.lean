/-
# The ELF loader stays inside the file

`src/kernel/elf.c` once more, statement by statement and with everything that can go wrong:
a read of the file gives nothing beyond its end, a product of two 16-bit numbers is an `int`
and gives nothing where it overflows, and the loops, which count in `uint16_t` and `uint64_t`,
give nothing where they need more rounds than they have.  What the functions do otherwise is
that of `LighthOS.Kernel.Elf`.

For files below 2 GiB none of this happens: the functions with checks return what those
without return (`elf_stays_inside`).  `elf_load_at` does not return where `vmm_map_in` finds
no memory for a table and halts the machine; its result is `some none` there.
-/

import LighthOS.Kernel.Elf

namespace LighthOS

/-- A read of `n` bytes of the file. -/
def Image.readAt (f : Image) (off n : ℕ) : Option ℕ :=
  if off + n ≤ f.size then some (readLe f.data off n) else none

/-- Program header `i`, at `bytes + ehdr->e_phoff + i * ehdr->e_phentsize`. -/
def Image.phdrAt (f : Image) (i : ℕ) : Option Phdr := do
  let phoff ← f.readAt 32 8
  let entsize ← f.readAt 54 2
  if 2 ^ 31 ≤ i * entsize then none
  else do
    let off := phoff + i * entsize
    some ⟨← f.readAt off 4, ← f.readAt (off + 8) 8, ← f.readAt (off + 16) 8, ← f.readAt (off + 32) 8,
      ← f.readAt (off + 40) 8⟩

/-- `elf_validate`. -/
def elfValidateAt (f : Image) : Option Bool :=
  if f.size < 64 then some false
  else do
    if (← f.readAt 0 4) ≠ 0x464C457F then some false
    else if (← f.readAt 4 1) ≠ 2 then some false
    else if (← f.readAt 5 1) ≠ 1 then some false
    else if (← f.readAt 16 2) ≠ 2 ∧ (← f.readAt 16 2) ≠ 3 then some false
    else if (← f.readAt 18 2) ≠ 62 then some false
    else
      let phoff ← f.readAt 32 8
      let phnum ← f.readAt 56 2
      let entsize ← f.readAt 54 2
      let phEnd := (phoff + phnum * entsize) % 2 ^ 64
      if phoff = 0 ∨ phnum = 0 then some false
      else if entsize < 56 then some false
      else if phEnd < phoff then some false
      else if f.size < phEnd then some false
      else some true

section Loops

variable {σ : Type}

/-- `for (uint16_t i = ..; i < n; i++)`.  The body gives nothing where something goes wrong, and
otherwise what the body of `Loop.run` gives. -/
def forU16 (n : ℕ) (body : ℕ → σ → Option (Option (Bool × σ))) : ℕ → ℕ → σ → Option (Option (Bool × σ))
  | 0, _, _ => none
  | fuel + 1, i, s =>
      if i < n then
        match body i s with
        | none => none
        | some none => some none
        | some (some (false, s)) => some (some (false, s))
        | some (some (true, s)) => forU16 n body fuel ((i + 1) % 2 ^ 16) s
      else some (some (true, s))

/-- `for (uint64_t a = ..; a < vend; a += PAGE_SIZE)` of `elf_load_at`. -/
def pagesAt (pml4 vend : ℕ) : ℕ → ℕ → Vm → Option (Option (Bool × Vm))
  | 0, _, _ => none
  | fuel + 1, a, s =>
      if a < vend then
        match mapSegmentPage pml4 a s with
        | none => some none
        | some (false, s) => some (some (false, s))
        | some (true, s) => pagesAt pml4 vend fuel ((a + pageSize) % 2 ^ 64) s
      else some (some (true, s))

/-- The loop of `write_into_pml4` and `zero_into_pml4`, from byte `base` of a source of `size`
bytes on. -/
def fillAt (pml4 base size : ℕ) (src : ℕ → UInt8) : ℕ → ℕ → ℕ → ℕ → Vm → Option (Option Vm)
  | 0, _, _, _, _ => none
  | fuel + 1, vaddr, pos, n, s =>
      if n = 0 then some (some s)
      else
        let chunk := min (pageSize - vaddr % pageSize) n
        if size < base + pos + chunk then none
        else match putUser s pml4 vaddr chunk fun k => src (pos + k) with
          | none => some none
          | some (false, s) => some (some s)
          | some (true, s) => fillAt pml4 base size src fuel (vaddr + chunk) (pos + chunk) (n - chunk) s

end Loops

/-- The bytes of a segment. -/
def fillSegmentAt (fuel : ℕ) (f : Image) (s : Vm) (pml4 vaddr : ℕ) (ph : Phdr) : Option (Option Vm) := do
  let r ← if 0 < ph.pFilesz then
      fillAt pml4 ph.pOffset f.size (fun k => f.data (ph.pOffset + k)) fuel vaddr 0 ph.pFilesz s
    else some (some s)
  match r with
  | none => some none
  | some s =>
      if ph.pFilesz < ph.pMemsz then
        fillAt pml4 0 (ph.pMemsz - ph.pFilesz) (fun _ => 0) fuel (vaddr + ph.pFilesz) 0
          (ph.pMemsz - ph.pFilesz) s
      else some (some s)

/-- The body of the loop of `elf_load_at`. -/
def loadSegmentAt (fuel : ℕ) (f : Image) (pml4 loadBase i : ℕ) (s : Vm) : Option (Option (Bool × Vm)) := do
  let ph ← f.phdrAt i
  if ph.pType ≠ 1 ∨ ph.pMemsz = 0 then some (some (true, s))
  else if !segmentOk f loadBase ph then some (some (false, s))
  else
    let vaddr := (ph.pVaddr + loadBase) % 2 ^ 64
    match ← pagesAt pml4 (pageUp (vaddr + ph.pMemsz)) fuel (pageDown vaddr) s with
    | none => some none
    | some (false, s) => some (some (false, s))
    | some (true, s) => (fillSegmentAt fuel f s pml4 vaddr ph).map fun r => r.map fun s => (true, s)

/-- `elf_load_at`. -/
def elfLoadAtAt (fuel : ℕ) (f : Image) (s : Vm) (pml4 loadBase : ℕ) : Option (Option (ℕ × Vm)) :=
  if pml4 = 0 then some (some (0, s))
  else do
    if !(← elfValidateAt f) then some (some (0, s))
    else
      match ← forU16 (← f.readAt 56 2) (loadSegmentAt fuel f pml4 loadBase) fuel 0 s with
      | none => some none
      | some (false, s) => some (some (0, s))
      | some (true, s) => (f.readAt 24 8).map fun entry => some ((entry + loadBase) % 2 ^ 64, s)

/-- What `elf_find_interp` does with a `PT_INTERP` header: whether it gives a path, and the bytes
that it writes to `out`, in order. -/
def interpOut (f : Image) (cap : ℕ) (ph : Phdr) : Option (Bool × List (ℕ × UInt8)) :=
  if (ph.pOffset + ph.pFilesz) % 2 ^ 64 < ph.pOffset then some (false, [])
  else if f.size < (ph.pOffset + ph.pFilesz) % 2 ^ 64 then some (false, [])
  else if ph.pFilesz = 0 then some (false, [])
  else
    let n := if cap ≤ ph.pFilesz then cap - 1 else ph.pFilesz
    if f.size < ph.pOffset + n % 2 ^ 32 then none
    else
      let bytes := (List.range (n % 2 ^ 32)).map fun k => f.data (ph.pOffset + k)
      let path := (bytes.reverse.dropWhile (· == 0)).reverse
      some (decide (path ≠ []), bytes.zipIdx.map Prod.swap ++ [(path.length, 0)])

/-- The body of the loop of `elf_find_interp`. -/
def interpAt (f : Image) (cap i : ℕ) (r : Bool × List (ℕ × UInt8)) :
    Option (Option (Bool × Bool × List (ℕ × UInt8))) := do
  let ph ← f.phdrAt i
  if ph.pType ≠ 3 then some (some (true, r))
  else (interpOut f cap ph).map fun r => some (false, r)

/-- `elf_find_interp`. -/
def elfFindInterpAt (fuel : ℕ) (f : Image) (cap : ℕ) : Option (Bool × List (ℕ × UInt8)) :=
  if cap = 0 then some (false, [])
  else do
    if !(← elfValidateAt f) then some (false, [])
    else (← forU16 (← f.readAt 56 2) (interpAt f cap) fuel 0 (false, [])).map Prod.snd

/-- The body of the loop of `elf_phdr_vaddr`. -/
def phdrVaddrAt (f : Image) (i r : ℕ) : Option (Option (Bool × ℕ)) := do
  let ph ← f.phdrAt i
  let phoff ← f.readAt 32 8
  if ph.pType ≠ 1 then some (some (true, r))
  else if ph.pOffset ≤ phoff ∧ phoff < (ph.pOffset + ph.pFilesz) % 2 ^ 64 then
    some (some (false, (ph.pVaddr + (phoff - ph.pOffset)) % 2 ^ 64))
  else some (some (true, r))

/-- `elf_phdr_vaddr`. -/
def elfPhdrVaddrAt (fuel : ℕ) (f : Image) : Option ℕ := do
  if !(← elfValidateAt f) then some 0
  else (← forU16 (← f.readAt 56 2) (phdrVaddrAt f) fuel 0 0).map Prod.snd

/-! ### The reads -/

section Reads

variable {f : Image}

theorem Image.readAt_eq {off n : ℕ} (h : off + n ≤ f.size) : f.readAt off n = some (readLe f.data off n) :=
  if_pos h

/-- A check that fails where `b` is false. -/
theorem check_eq {c : Prop} [Decidable c] {b rest : Bool} {x : Option Bool} (hc : c ↔ b = false)
    (hx : x = some rest) : (if c then some false else x) = some (b && rest) := by
  by_cases h : c
  · rw [if_pos h, hc.1 h, Bool.false_and]
  · rw [if_neg h, hx, Bool.eq_true_of_not_eq_false fun hb => h (hc.2 hb), Bool.true_and]

/-- **`elf_validate`** reads the header of 64 bytes only. -/
theorem elfValidateAt_eq (f : Image) : elfValidateAt f = some (elfValidate f) := by
  unfold elfValidateAt elfValidate
  by_cases hsize : f.size < 64
  · rw [if_pos hsize]
    simp [Nat.not_le.2 hsize]
  have hread : ∀ off n, off + n ≤ 64 → f.readAt off n = some (readLe f.data off n) := fun off n h =>
    Image.readAt_eq (by omega)
  simp only [hread 0 4 (by decide), hread 4 1 (by decide), hread 5 1 (by decide), hread 16 2 (by decide),
    hread 18 2 (by decide), hread 32 8 (by decide), hread 56 2 (by decide), hread 54 2 (by decide),
    Option.bind_eq_bind, Option.bind_some, Bool.and_assoc]
  refine check_eq (by simp) (check_eq (by simp [Image.magic]) (check_eq (by simp [Image.elfClass])
    (check_eq (by simp [Image.elfData]) (check_eq (by simp [Image.eType])
      (check_eq (by simp [Image.eMachine]) ?_)))))
  rw [← Bool.and_assoc]
  have hle : ∀ a b : ℕ, b < a ↔ decide (a ≤ b) = false := fun a b =>
    (decide_eq_false_iff_not.trans Nat.not_le).symm
  refine check_eq (by simp [Image.ePhoff, Image.ePhnum, or_iff_not_imp_left]) (check_eq (hle _ _)
    (check_eq (hle _ _) ?_))
  rw [← Bool.and_true (decide _)]
  exact check_eq (hle _ _) rfl

/-- The table of a valid file lies inside it. -/
theorem elfValidate_table (h : elfValidate f = true) :
    64 ≤ f.size ∧ 56 ≤ f.ePhentsize ∧ f.ePhoff + f.ePhnum * f.ePhentsize ≤ f.size := by
  simp only [elfValidate, Bool.and_eq_true, decide_eq_true_eq] at h
  obtain ⟨⟨⟨⟨⟨⟨⟨⟨⟨⟨hsize, -⟩, -⟩, -⟩, -⟩, -⟩, -⟩, -⟩, hent⟩, hwrap⟩, hend⟩ := h
  have hphoff : f.ePhoff < 256 ^ 8 := readLe_lt _ _ _
  have hnum : f.ePhnum < 256 ^ 2 := readLe_lt _ _ _
  have hsz : f.ePhentsize < 256 ^ 2 := readLe_lt _ _ _
  have hprod : f.ePhnum * f.ePhentsize < 256 ^ 2 * 256 ^ 2 := Nat.mul_lt_mul'' hnum hsz
  exact ⟨hsize, hent, by omega⟩

/-- **A header of the table** is read inside the file. -/
theorem Image.phdrAt_eq (hsize : f.size < 2 ^ 31) (h : elfValidate f = true) {i : ℕ} (hi : i < f.ePhnum) :
    f.phdrAt i = some (f.phdr i) := by
  obtain ⟨h64, hent, htable⟩ := elfValidate_table h
  have hlast : (i + 1) * f.ePhentsize ≤ f.ePhnum * f.ePhentsize := Nat.mul_le_mul_right _ hi
  rw [Nat.add_mul, Nat.one_mul] at hlast
  have hphoff : f.readAt 32 8 = some f.ePhoff := readAt_eq (by omega)
  have hentsize : f.readAt 54 2 = some f.ePhentsize := readAt_eq (by omega)
  unfold Image.phdrAt
  simp only [hphoff, hentsize, Option.bind_eq_bind, Option.bind_some]
  rw [if_neg (by omega), readAt_eq (by omega), readAt_eq (by omega), readAt_eq (by omega), readAt_eq (by omega),
    readAt_eq (by omega)]
  rfl

end Reads

/-! ### The loops -/

section Ends

variable {σ : Type}

/-- **The loop over the headers** ends: its counter does not wrap. -/
theorem forU16_eq {n : ℕ} (hn : n < 2 ^ 16) {body : ℕ → σ → Option (Option (Bool × σ))}
    {body' : ℕ → σ → Option (Bool × σ)} (hbody : ∀ i < n, ∀ s, body i s = some (body' i s)) {fuel : ℕ}
    {i : ℕ} (hi : i ≤ n) (hfuel : n - i < fuel) (s : σ) :
    forU16 n body fuel i s = some (Loop.run body' (List.range' i (n - i)) s) := by
  induction fuel generalizing i s with
  | zero => omega
  | succ fuel ih =>
      rw [forU16]
      by_cases hlt : i < n
      · rw [if_pos hlt, hbody i hlt, show n - i = n - (i + 1) + 1 by omega, List.range'_succ, Loop.run]
        rcases body' i s with _ | ⟨_ | _, s'⟩
        · rfl
        · rfl
        · simp only
          rw [Nat.mod_eq_of_lt (by omega)]
          exact ih (by omega) (by omega) s'
      · rw [if_neg hlt, show n - i = 0 by omega]
        rfl

/-- A loop that stops at the first element with a property. -/
theorem run_eq_find? {body : ℕ → σ → Option (Bool × σ)} {p : ℕ → Bool} {g : ℕ → σ} {l : List ℕ}
    (hbody : ∀ i ∈ l, ∀ s, body i s = some (if p i then (false, g i) else (true, s))) (s : σ) :
    Loop.run body l s = some ((l.find? p).elim (true, s) fun i => (false, g i)) := by
  induction l with
  | nil => rfl
  | cons i l ih =>
      rw [Loop.run, hbody i List.mem_cons_self, List.find?_cons]
      cases p i with
      | true => rfl
      | false => exact ih fun j hj => hbody j (List.mem_cons_of_mem i hj)

theorem pageRange_of_lt {a stop : ℕ} (h : a < stop) : pageRange a stop = a :: pageRange (a + pageSize) stop := by
  have hcount : (stop - a + pageSize - 1) / pageSize = (stop - (a + pageSize) + pageSize - 1) / pageSize + 1 := by
    simp only [pageSize]
    omega
  rw [pageRange, hcount, List.range_succ_eq_map, List.map_cons, List.map_map, pageRange]
  simp only [Nat.zero_mul, Nat.add_zero]
  congr 1
  refine List.map_congr_left fun i _ => ?_
  simp only [Function.comp, Nat.succ_eq_add_one, Nat.add_mul]
  omega

/-- **The loop over the pages** ends: its counter does not wrap. -/
theorem pagesAt_eq {pml4 vend : ℕ} (hvend : vend ≤ 2 ^ 63) {fuel a : ℕ}
    (hfuel : vend - a < fuel) (s : Vm) :
    pagesAt pml4 vend fuel a s = some (Loop.run (mapSegmentPage pml4) (pageRange a vend) s) := by
  induction fuel generalizing a s with
  | zero => omega
  | succ fuel ih =>
      rw [pagesAt]
      by_cases hlt : a < vend
      · rw [if_pos hlt, pageRange_of_lt hlt, Loop.run]
        rcases mapSegmentPage pml4 a s with _ | ⟨_ | _, s'⟩
        · rfl
        · rfl
        · simp only
          rw [Nat.mod_eq_of_lt (by simp only [pageSize]; omega)]
          exact ih (by simp only [pageSize]; omega) s'
      · have hnone : (vend - a + pageSize - 1) / pageSize = 0 := by
          simp only [pageSize]
          omega
        rw [if_neg hlt, pageRange, hnone]
        rfl

/-- **The byte loop** reads its source inside and ends: every round takes a byte or more. -/
theorem fillAt_eq {pml4 base size : ℕ} {src : ℕ → UInt8} {fuel vaddr pos n rounds : ℕ}
    (hsize : base + pos + n ≤ size) (hfuel : n < fuel) (hrounds : n ≤ rounds) (s : Vm) :
    fillAt pml4 base size src fuel vaddr pos n s = some (fillPml4 pml4 src rounds vaddr pos n s) := by
  induction fuel generalizing vaddr pos n rounds s with
  | zero => omega
  | succ fuel ih =>
      rw [fillAt]
      by_cases hn : n = 0
      · rw [if_pos hn]
        cases rounds with
        | zero => rfl
        | succ rounds => rw [fillPml4, if_pos hn]
      obtain ⟨rounds, rfl⟩ : ∃ k, rounds = k + 1 := ⟨rounds - 1, by omega⟩
      have hpage : 0 < pageSize - vaddr % pageSize := by
        simp only [pageSize]
        omega
      rw [if_neg hn, fillPml4, if_neg hn]
      simp only
      rw [if_neg (by omega)]
      rcases putUser s pml4 vaddr (min (pageSize - vaddr % pageSize) n) fun k => src (pos + k) with _ | ⟨_ | _, s'⟩
      · rfl
      · rfl
      · exact ih (by omega) (by omega) (by omega) s'

end Ends

/-! ### The functions -/

section Functions

variable {f : Image} (hsize : f.size < 2 ^ 31) (h : elfValidate f = true)

/-- What `segmentOk` says of the file and of the addresses. -/
theorem segmentOk_bounds {loadBase i : ℕ} (hok : segmentOk f loadBase (f.phdr i) = true) :
    (f.phdr i).pOffset + (f.phdr i).pFilesz ≤ f.size ∧ (f.phdr i).pFilesz ≤ (f.phdr i).pMemsz ∧
      ((f.phdr i).pVaddr + loadBase) % 2 ^ 64 + (f.phdr i).pMemsz ≤ userVaMax := by
  simp only [segmentOk, Bool.and_eq_true, decide_eq_true_eq] at hok
  obtain ⟨⟨⟨⟨⟨⟨hwrap, hend⟩, hmem⟩, -⟩, -⟩, hwrap'⟩, hmax⟩ := hok
  have hoff : (f.phdr i).pOffset < 256 ^ 8 := readLe_lt _ _ _
  have hfile : (f.phdr i).pFilesz < 256 ^ 8 := readLe_lt _ _ _
  have hmemsz : (f.phdr i).pMemsz < 256 ^ 8 := readLe_lt _ _ _
  exact ⟨by omega, hmem, by omega⟩

theorem fillSegmentAt_eq {fuel : ℕ} (hfuel : 2 ^ 48 ≤ fuel) {ph : Phdr} (hfile : ph.pOffset + ph.pFilesz ≤ f.size)
    (hmem : ph.pMemsz ≤ userVaMax) (hle : ph.pFilesz ≤ ph.pMemsz) (s : Vm) (pml4 vaddr : ℕ) :
    fillSegmentAt fuel f s pml4 vaddr ph = some (fillSegment f s pml4 vaddr ph) := by
  simp only [userVaMax] at hmem
  have hwrite : fillAt pml4 ph.pOffset f.size (fun k => f.data (ph.pOffset + k)) fuel vaddr 0 ph.pFilesz s =
      some (writeIntoPml4 s pml4 vaddr (fun k => f.data (ph.pOffset + k)) ph.pFilesz) :=
    fillAt_eq (by omega) (by omega) le_rfl s
  have hzero : ∀ s, fillAt pml4 0 (ph.pMemsz - ph.pFilesz) (fun _ => 0) fuel (vaddr + ph.pFilesz) 0
      (ph.pMemsz - ph.pFilesz) s = some (zeroIntoPml4 s pml4 (vaddr + ph.pFilesz) (ph.pMemsz - ph.pFilesz)) :=
    fillAt_eq (by omega) (by omega) le_rfl
  have hrest : ∀ r : Option Vm, (match r with
      | none => some none
      | some s => if ph.pFilesz < ph.pMemsz then fillAt pml4 0 (ph.pMemsz - ph.pFilesz) (fun _ => 0) fuel
          (vaddr + ph.pFilesz) 0 (ph.pMemsz - ph.pFilesz) s else some (some s)) = some (r.bind fun s =>
        if ph.pFilesz < ph.pMemsz then zeroIntoPml4 s pml4 (vaddr + ph.pFilesz) (ph.pMemsz - ph.pFilesz)
        else some s) := by
    rintro (_ | s)
    · rfl
    · simp only [hzero, Option.bind_some]
      split_ifs <;> rfl
  unfold fillSegmentAt fillSegment
  rw [hwrite]
  by_cases hpos : 0 < ph.pFilesz
  · rw [if_pos hpos, if_pos hpos]
    exact hrest _
  · rw [if_neg hpos, if_neg hpos]
    exact hrest (some s)

include hsize h in
/-- **A segment** is loaded from bytes of the file, and the loops end. -/
theorem loadSegmentAt_eq {fuel : ℕ} (hfuel : 2 ^ 48 ≤ fuel) {i : ℕ} (hi : i < f.ePhnum) (pml4 loadBase : ℕ) (s : Vm) :
    loadSegmentAt fuel f pml4 loadBase i s = some (loadSegment f pml4 loadBase i s) := by
  unfold loadSegmentAt loadSegment
  rw [Image.phdrAt_eq hsize h hi]
  simp only [Option.bind_eq_bind, Option.bind_some]
  split_ifs with hskip hbad
  · rfl
  · rfl
  obtain ⟨hfile, hle, hmax⟩ := segmentOk_bounds (by simpa using hbad)
  have hvend : pageUp (((f.phdr i).pVaddr + loadBase) % 2 ^ 64 + (f.phdr i).pMemsz) < 2 ^ 48 := by
    simp only [pageUp, pageDown, pageSize, userVaMax] at *
    omega
  rw [pagesAt_eq (by omega) (by omega), Option.bind_some]
  rcases Loop.run (mapSegmentPage pml4) _ s with _ | ⟨_ | _, s'⟩
  · rfl
  · rfl
  · simp only
    rw [fillSegmentAt_eq hfuel hfile (by omega) hle]
    rfl

include hsize in
/-- **`elf_load_at`** reads bytes of the file only, and its loops end. -/
theorem elfLoadAtAt_eq {fuel : ℕ} (hfuel : 2 ^ 48 ≤ fuel) (s : Vm) (pml4 loadBase : ℕ) :
    elfLoadAtAt fuel f s pml4 loadBase = some (elfLoadAt f s pml4 loadBase) := by
  unfold elfLoadAtAt elfLoadAt
  rw [elfValidateAt_eq]
  simp only [Option.bind_eq_bind, Option.bind_some]
  split_ifs with hzero hbad
  · rfl
  · rfl
  have h : elfValidate f = true := by simpa using hbad
  obtain ⟨h64, -, -⟩ := elfValidate_table h
  have hnum : f.ePhnum < 256 ^ 2 := readLe_lt _ _ _
  have hloop := forU16_eq hnum (fun i hi => loadSegmentAt_eq hsize h hfuel hi pml4 loadBase) (Nat.zero_le _)
    (show f.ePhnum - 0 < fuel by omega) s
  rw [Nat.sub_zero, ← List.range_eq_range'] at hloop
  rw [Image.readAt_eq (show 56 + 2 ≤ f.size by omega), Image.readAt_eq (show 24 + 8 ≤ f.size by omega),
    Option.bind_some, show readLe f.data 56 2 = f.ePhnum from rfl, hloop, Option.bind_some]
  rcases Loop.run (loadSegment f pml4 loadBase) (List.range f.ePhnum) s with _ | ⟨_ | _, s'⟩ <;> rfl

/-- What `elf_find_interp` does with `out`: it writes inside, and what it finds is there with a NUL
behind it. -/
structure InterpWrites (f : Image) (cap : ℕ) (r : Bool × List (ℕ × UInt8)) : Prop where
  found : r.1 = (elfFindInterp f cap).isSome
  inside : ∀ w ∈ r.2, w.1 < cap
  count : r.2.length ≤ cap
  path : ∀ path, elfFindInterp f cap = some path →
    ∃ rest, r.2 = (path ++ rest).zipIdx.map Prod.swap ++ [(path.length, 0)]

/-- A byte string without its trailing zeros, and those zeros. -/
theorem exists_append_dropWhile (bytes : List UInt8) :
    ∃ rest, (bytes.reverse.dropWhile (· == 0)).reverse ++ rest = bytes := by
  refine ⟨(bytes.reverse.takeWhile (· == 0)).reverse, ?_⟩
  rw [← List.reverse_append, List.takeWhile_append_dropWhile, List.reverse_reverse]

/-- A path is read inside the file. -/
theorem interpOut_isSome (f : Image) (cap i : ℕ) : ∃ r, interpOut f cap (f.phdr i) = some r := by
  have hoff : (f.phdr i).pOffset < 256 ^ 8 := readLe_lt _ _ _
  have hfile : (f.phdr i).pFilesz < 256 ^ 8 := readLe_lt _ _ _
  unfold interpOut
  simp only
  split_ifs <;> first | exact ⟨_, rfl⟩ | omega

include h in
/-- What is written for the header that is found. -/
theorem interpOut_spec {cap i : ℕ} (hcap : 1 ≤ cap) (hcap' : cap < 2 ^ 32)
    (hfind : ((List.range f.ePhnum).find? fun i => (f.phdr i).pType = 3) = some i) :
    ∃ r, interpOut f cap (f.phdr i) = some r ∧ InterpWrites f cap r := by
  have hmodel : elfFindInterp f cap =
      if ((f.phdr i).pOffset + (f.phdr i).pFilesz) % 2 ^ 64 < (f.phdr i).pOffset then none
      else if f.size < ((f.phdr i).pOffset + (f.phdr i).pFilesz) % 2 ^ 64 then none
      else if (f.phdr i).pFilesz = 0 then none
      else
        let n := if cap ≤ (f.phdr i).pFilesz then cap - 1 else (f.phdr i).pFilesz
        let out := ((List.range n).map fun k => f.data ((f.phdr i).pOffset + k)).reverse.dropWhile (· == 0)
        if out = [] then none else some out.reverse := by
    rw [elfFindInterp, if_neg (by simp [h]; omega), hfind]
  have hoff : (f.phdr i).pOffset < 256 ^ 8 := readLe_lt _ _ _
  have hfile : (f.phdr i).pFilesz < 256 ^ 8 := readLe_lt _ _ _
  have hfail : elfFindInterp f cap = none → InterpWrites f cap (false, []) := fun hnone =>
    ⟨by rw [hnone]; rfl, by simp, Nat.zero_le _, fun path hpath => by simp [hnone] at hpath⟩
  unfold interpOut
  by_cases hwrap : ((f.phdr i).pOffset + (f.phdr i).pFilesz) % 2 ^ 64 < (f.phdr i).pOffset
  · rw [if_pos hwrap] at hmodel ⊢
    exact ⟨_, rfl, hfail hmodel⟩
  rw [if_neg hwrap] at hmodel ⊢
  by_cases hend : f.size < ((f.phdr i).pOffset + (f.phdr i).pFilesz) % 2 ^ 64
  · rw [if_pos hend] at hmodel ⊢
    exact ⟨_, rfl, hfail hmodel⟩
  rw [if_neg hend] at hmodel ⊢
  by_cases hzero : (f.phdr i).pFilesz = 0
  · rw [if_pos hzero] at hmodel ⊢
    exact ⟨_, rfl, hfail hmodel⟩
  rw [if_neg hzero] at hmodel ⊢
  simp only at hmodel ⊢
  generalize hn : (if cap ≤ (f.phdr i).pFilesz then cap - 1 else (f.phdr i).pFilesz) = n at hmodel ⊢
  have hle : n ≤ (f.phdr i).pFilesz ∧ n < cap := by
    split_ifs at hn <;> omega
  rw [Nat.mod_eq_of_lt (show n < 2 ^ 32 by omega), if_neg (by omega)]
  generalize hbytes : ((List.range n).map fun k => f.data ((f.phdr i).pOffset + k)) = bytes at hmodel ⊢
  have hlen : bytes.length = n := by rw [← hbytes, List.length_map, List.length_range]
  obtain ⟨rest, hrest⟩ := exists_append_dropWhile bytes
  have hpath : (bytes.reverse.dropWhile (· == 0)).reverse.length ≤ n := by
    have := congrArg List.length hrest
    rw [List.length_append, hlen] at this
    omega
  refine ⟨_, rfl, ?_, fun w hw => ?_, ?_, fun path hfound => ⟨rest, ?_⟩⟩
  · rw [hmodel]
    by_cases hnil : bytes.reverse.dropWhile (· == 0) = []
    · simp [hnil]
    · simp [hnil]
  · rcases List.mem_append.1 hw with hw | hw
    · obtain ⟨x, hx, rfl⟩ := List.mem_map.1 hw
      have := List.snd_lt_of_mem_zipIdx hx
      simp only [Prod.fst_swap]
      omega
    · obtain rfl := List.mem_singleton.1 hw
      simp only
      omega
  · simp only [List.length_append, List.length_map, List.length_zipIdx, List.length_singleton]
    omega
  · rw [hmodel] at hfound
    split_ifs at hfound
    obtain rfl := Option.some.inj hfound
    rw [hrest]

include hsize in
/-- **`elf_phdr_vaddr`** reads bytes of the file only, and its loop ends. -/
theorem elfPhdrVaddrAt_eq {fuel : ℕ} (hfuel : 2 ^ 16 ≤ fuel) : elfPhdrVaddrAt fuel f = some (elfPhdrVaddr f) := by
  unfold elfPhdrVaddrAt elfPhdrVaddr
  rw [elfValidateAt_eq]
  simp only [Option.bind_eq_bind, Option.bind_some]
  split_ifs with hbad
  · rfl
  have h : elfValidate f = true := by simpa using hbad
  obtain ⟨h64, -, -⟩ := elfValidate_table h
  have hnum : f.ePhnum < 256 ^ 2 := readLe_lt _ _ _
  have hbody : ∀ i < f.ePhnum, ∀ r, phdrVaddrAt f i r = some (some (if decide ((f.phdr i).pType = 1 ∧
      (f.phdr i).pOffset ≤ f.ePhoff ∧ f.ePhoff < ((f.phdr i).pOffset + (f.phdr i).pFilesz) % 2 ^ 64) then
        (false, ((f.phdr i).pVaddr + (f.ePhoff - (f.phdr i).pOffset)) % 2 ^ 64) else (true, r))) := by
    intro i hi r
    unfold phdrVaddrAt
    rw [Image.phdrAt_eq hsize h hi, Image.readAt_eq (show 32 + 8 ≤ f.size by omega)]
    simp only [Option.bind_eq_bind, Option.bind_some, show readLe f.data 32 8 = f.ePhoff from rfl]
    by_cases h₁ : (f.phdr i).pType = 1
    · simp only [h₁, ne_eq, not_true_eq_false, if_false, true_and, decide_eq_true_eq]
      split_ifs <;> rfl
    · simp [h₁]
  have hloop := forU16_eq hnum hbody (Nat.zero_le _) (show f.ePhnum - 0 < fuel by omega) 0
  rw [Nat.sub_zero, ← List.range_eq_range', run_eq_find? fun _ _ _ => rfl] at hloop
  rw [Image.readAt_eq (show 56 + 2 ≤ f.size by omega), Option.bind_some, show readLe f.data 56 2 = f.ePhnum from rfl,
    hloop, Option.bind_some]
  cases (List.range f.ePhnum).find? _ <;> rfl

include hsize in
/-- **`elf_find_interp`** reads bytes of the file only, writes inside `out`, and its loop ends. -/
theorem elfFindInterpAt_spec {fuel cap : ℕ} (hfuel : 2 ^ 16 ≤ fuel) (hcap : 1 ≤ cap) (hcap' : cap < 2 ^ 32) :
    ∃ r, elfFindInterpAt fuel f cap = some r ∧ InterpWrites f cap r := by
  have hfail : elfFindInterp f cap = none → InterpWrites f cap (false, []) := fun hnone =>
    ⟨by rw [hnone]; rfl, by simp, Nat.zero_le _, fun path hpath => by simp [hnone] at hpath⟩
  unfold elfFindInterpAt
  rw [if_neg (by omega), elfValidateAt_eq]
  simp only [Option.bind_eq_bind, Option.bind_some]
  by_cases hbad : elfValidate f = false
  · rw [hbad]
    exact ⟨_, rfl, hfail (by rw [elfFindInterp, hbad]; simp)⟩
  have h : elfValidate f = true := by simpa using hbad
  obtain ⟨h64, -, -⟩ := elfValidate_table h
  have hnum : f.ePhnum < 256 ^ 2 := readLe_lt _ _ _
  -- the loop stops at the first header of the type
  choose out hout using interpOut_isSome f cap
  have hbody : ∀ i < f.ePhnum, ∀ r, interpAt f cap i r =
      some (some (if decide ((f.phdr i).pType = 3) then (false, out i) else (true, r))) := by
    intro i hi r
    rw [interpAt, Image.phdrAt_eq hsize h hi]
    by_cases htype : (f.phdr i).pType = 3
    · simp [htype, hout]
    · simp [htype]
  have hloop := forU16_eq hnum hbody (Nat.zero_le _) (show f.ePhnum - 0 < fuel by omega) (false, [])
  rw [Nat.sub_zero, ← List.range_eq_range', run_eq_find? fun _ _ _ => rfl] at hloop
  rw [h, Image.readAt_eq (show 56 + 2 ≤ f.size by omega)]
  simp only [Option.bind_some, show readLe f.data 56 2 = f.ePhnum from rfl, hloop]
  cases hfind : (List.range f.ePhnum).find? fun i => decide ((f.phdr i).pType = 3) with
  | none => exact ⟨_, rfl, hfail (by simp [elfFindInterp, h, hfind])⟩
  | some i =>
      obtain ⟨r, hr, hlaw⟩ := interpOut_spec h hcap hcap' hfind
      obtain rfl := Option.some.inj ((hout i).symm.trans hr)
      exact ⟨_, rfl, hlaw⟩

end Functions

/-- **The loader stays inside the file.**  For every file of less than 2 GiB, and with enough rounds
for the loops, the functions with checks return what those without checks return; and
`elf_find_interp` writes no more than `cap` bytes and ends its path with NUL. -/
theorem elf_stays_inside (f : Image) (hsize : f.size < 2 ^ 31) {fuel : ℕ} (hfuel : 2 ^ 48 ≤ fuel) :
    elfValidateAt f = some (elfValidate f) ∧
    (∀ s pml4 loadBase, elfLoadAtAt fuel f s pml4 loadBase = some (elfLoadAt f s pml4 loadBase)) ∧
    (∀ cap, 1 ≤ cap → cap < 2 ^ 32 → ∃ r, elfFindInterpAt fuel f cap = some r ∧ InterpWrites f cap r) ∧
    elfPhdrVaddrAt fuel f = some (elfPhdrVaddr f) :=
  ⟨elfValidateAt_eq f, elfLoadAtAt_eq hsize hfuel, fun _ hcap hcap' =>
    elfFindInterpAt_spec hsize (by omega) hcap hcap', elfPhdrVaddrAt_eq hsize (by omega)⟩

/-- A file of 180 bytes: a `PT_LOAD` header puts all of it at `0x400000`, and a `PT_INTERP` header
names the path "/ld" at its end. -/
def interpImage : Image where
  data i := match i with
    | 0 => 0x7F | 1 => 0x45 | 2 => 0x4C | 3 => 0x46 | 4 => 2 | 5 => 1 | 16 => 2 | 18 => 62
    | 26 => 0x40 | 32 => 64 | 54 => 56 | 56 => 2
    | 64 => 1 | 82 => 0x40 | 96 => 180 | 104 => 180
    | 120 => 3 | 128 => 176 | 152 => 4 | 160 => 4
    | 176 => 47 | 177 => 108 | 178 => 100
    | _ => 0
  size := 180

/-- The hypotheses of `elf_stays_inside` are satisfiable: a file with a segment, which is loaded into
free memory, and an interpreter. -/
theorem elf_stays_inside_interp : elfValidateAt interpImage = some true ∧
    (∃ s, elfLoadAtAt (2 ^ 48) interpImage ⟨fun _ _ => 0, ⟨fun f => decide (f < 2), 1, 32, 2⟩, 0⟩ 1 0
      = some (some (0x400000, s)) ∧ s.pmm.usedFrames = 6) ∧
    (∃ rest, elfFindInterpAt (2 ^ 48) interpImage 256
      = some (true, ([47, 108, 100] ++ rest).zipIdx.map Prod.swap ++ [(3, 0)])) ∧
    elfPhdrVaddrAt (2 ^ 48) interpImage = some 0x400040 := by
  obtain ⟨hvalid, hload, hinterp, hphdr⟩ := elf_stays_inside interpImage (by decide) le_rfl
  have hrun : (elfLoadAt interpImage ⟨fun _ _ => 0, ⟨fun f => decide (f < 2), 1, 32, 2⟩, 0⟩ 1 0).any
      (fun r => r.1 = 0x400000 ∧ r.2.pmm.usedFrames = 6) = true := by decide +kernel
  obtain ⟨⟨_, s⟩, hs, hr⟩ := (Option.any_eq_true _ _).1 hrun
  obtain ⟨rfl, hused⟩ := of_decide_eq_true hr
  obtain ⟨⟨found, out⟩, hout, hw⟩ := hinterp 256 (by decide) (by decide)
  have hpath : elfFindInterp interpImage 256 = some [47, 108, 100] := by decide +kernel
  obtain ⟨rest, hrest⟩ := hw.path _ hpath
  obtain rfl : found = true := hw.found.trans (by rw [hpath]; rfl)
  obtain rfl := hrest
  exact ⟨hvalid, ⟨s, by rw [hload, hs], hused⟩, ⟨rest, hout⟩, hphdr⟩

end LighthOS
