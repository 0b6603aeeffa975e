/-
# What the processor makes of an address

The processor accepts canonical addresses only, reads an entry at each level down to a
page of 1 GiB, 2 MiB or 4 KiB, and lets user code in where every entry on the way is
present and user-accessible and, for a write, writable.

`user_ptr_ok` of `src/mm/vmm.c` makes the same walk for each page of a range, but looks
for the write permission in the last entry only, and at no bit of the address above bit 47
(`userPtrOk_exact_iff`).  `SYS_PAGEMAP` of `src/kernel/syscall.c` takes every entry for a
table, also that of a large page (`sysPagemap_faithful_iff`).
-/

import LighthOS.Mm.UserSpace

namespace LighthOS

/-- Bits 47 to 63 are equal. -/
def CanonicalVa (va : ℕ) : Prop := va < 2 ^ 47 ∨ 2 ^ 64 - 2 ^ 47 ≤ va

instance (va : ℕ) : Decidable (CanonicalVa va) := inferInstanceAs (Decidable (_ ∨ _))

/-- The entries that the processor reads for `va`, down to the one of its page or to the
first that is not present. -/
def walkEntries (s : Vm) (pml4 va : ℕ) : List U64 :=
  let last (e : U64) := !hasFlag e vmmFlagPresent || hasFlag e vmmFlagHuge
  let e4 := s.mem pml4 (pml4Idx va)
  if !hasFlag e4 vmmFlagPresent then [e4]
  else
    let e3 := s.mem (entryFrame e4) (pdptIdx va)
    if last e3 then [e4, e3]
    else
      let e2 := s.mem (entryFrame e3) (pdIdx va)
      if last e2 then [e4, e3, e2] else [e4, e3, e2, s.mem (entryFrame e2) (ptIdx va)]

/-- The processor lets user code read, or also write, at `va`. -/
def HardwareAllows (s : Vm) (pml4 va : ℕ) (write : Bool) : Prop :=
  CanonicalVa va ∧ ∀ e ∈ walkEntries s pml4 va, hasFlag e vmmFlagPresent = true ∧
    hasFlag e vmmFlagUser = true ∧ (write = true → hasFlag e vmmFlagWrite = true)

instance (s : Vm) (pml4 va : ℕ) (write : Bool) : Decidable (HardwareAllows s pml4 va write) :=
  @instDecidableAnd _ _ _ (List.decidableBAll _ _)

/-- The size of the page that a walk over `n` entries ends in. -/
def walkSize : ℕ → ℕ
  | 2 => 2 ^ 30
  | 3 => 2 ^ 21
  | _ => 2 ^ 12

/-- The physical address of `va`, where it is mapped. -/
def hardwarePhys (s : Vm) (pml4 va : ℕ) : Option ℕ :=
  let es := walkEntries s pml4 va
  if CanonicalVa va ∧ es.all (hasFlag · vmmFlagPresent) = true then
    let size := walkSize es.length
    some ((es.getLastD 0 &&& pteAddrMask).toNat / size * size + va % size)
  else none

/-! ### Addresses of one page -/

section Page

variable (s : Vm) (pml4 va : ℕ) (write : Bool)

theorem canonicalVa_pageDown : CanonicalVa (pageDown va) ↔ CanonicalVa va := by
  simp only [CanonicalVa, pageDown, pageSize]
  omega

theorem levels_pageDown : pml4Idx (pageDown va) = pml4Idx va ∧ pdptIdx (pageDown va) = pdptIdx va ∧
    pdIdx (pageDown va) = pdIdx va ∧ ptIdx (pageDown va) = ptIdx va := by
  simp only [pml4Idx, pdptIdx, pdIdx, ptIdx, pageDown, pageSize]
  omega

theorem walkEntries_pageDown : walkEntries s pml4 (pageDown va) = walkEntries s pml4 va := by
  obtain ⟨h4, h3, h2, h1⟩ := levels_pageDown va
  simp only [walkEntries, h4, h3, h2, h1]

theorem pageUserAccessible_pageDown :
    pageUserAccessible s pml4 (pageDown va) write = pageUserAccessible s pml4 va write := by
  obtain ⟨h4, h3, h2, h1⟩ := levels_pageDown va
  simp only [pageUserAccessible, h4, h3, h2, h1]

theorem hardwareAllows_pageDown :
    HardwareAllows s pml4 (pageDown va) write ↔ HardwareAllows s pml4 va write := by
  rw [HardwareAllows, HardwareAllows, canonicalVa_pageDown, walkEntries_pageDown]

/-- The addresses of a page are mapped one behind the other. -/
theorem hardwarePhys_pageDown :
    hardwarePhys s pml4 va = (hardwarePhys s pml4 (pageDown va)).map (· + va % pageSize) := by
  simp only [hardwarePhys, walkEntries_pageDown, canonicalVa_pageDown]
  split_ifs
  · rw [Option.map_some, Nat.add_assoc]
    congr 2
    simp only [pageDown, pageSize, walkSize]
    split <;> omega
  · rfl

end Page

/-! ### `user_ptr_ok` -/

/-- The page loop of `user_ptr_ok`: no result while it is running. -/
def pagesAccessible (s : Vm) (pml4 last : ℕ) (write : Bool) : ℕ → ℕ → Option Bool
  | 0, _ => none
  | fuel + 1, va =>
      if !pageUserAccessible s pml4 va write then some false
      else if va = last then some true
      else pagesAccessible s pml4 last write fuel ((va + pageSize) % 2 ^ 64)

/-- `user_ptr_ok`, for the PML4 that `default_pml4` gives. -/
def userPtrOk (fuel : ℕ) (s : Vm) (pml4 ptr len : ℕ) (write : Bool) : Option Bool :=
  if len = 0 then some true
  else if pml4 = 0 then some false
  else if (ptr + len) % 2 ^ 64 < ptr then some false
  else pagesAccessible s pml4 (pageDown ((ptr + len - 1) % 2 ^ 64)) write fuel (pageDown ptr)

section UserPtr

variable {s : Vm} {root ptr len : ℕ} {write : Bool}

/-- What `page_user_accessible` looks at: every entry for the access of user code, and the
last one for that to write. -/
theorem pageUserAccessible_iff (s : Vm) (root va : ℕ) (write : Bool) :
    pageUserAccessible s root va write = true ↔
      (∀ e ∈ walkEntries s root va, hasFlag e vmmFlagPresent = true ∧ hasFlag e vmmFlagUser = true) ∧
        (write = true → ∀ e ∈ (walkEntries s root va).getLast?, hasFlag e vmmFlagWrite = true) := by
  simp only [pageUserAccessible, walkEntries]
  generalize s.mem root (pml4Idx va) = e4
  generalize s.mem (entryFrame e4) (pdptIdx va) = e3
  generalize s.mem (entryFrame e3) (pdIdx va) = e2
  generalize s.mem (entryFrame e2) (ptIdx va) = e1
  by_cases h4 : hasFlag e4 vmmFlagPresent = true
  · by_cases h3 : hasFlag e3 vmmFlagPresent = true
    · by_cases hh3 : hasFlag e3 vmmFlagHuge = true
      · cases write <;> simp [h4, h3, hh3, and_assoc]
      · by_cases h2 : hasFlag e2 vmmFlagPresent = true
        · by_cases hh2 : hasFlag e2 vmmFlagHuge = true
          · cases write <;> simp [h4, h3, hh3, h2, hh2, and_assoc]
          · cases write <;> simp [h4, h3, hh3, h2, hh2, and_assoc]
        · simp [h4, h3, hh3, h2]
    · simp [h4, h3]
  · simp [h4]

/-- The processor asks for more than `page_user_accessible`. -/
theorem hardwareAllows_iff (s : Vm) (root va : ℕ) (write : Bool) :
    HardwareAllows s root va write ↔ pageUserAccessible s root va write = true ∧ CanonicalVa va ∧
      (write = true → ∀ e ∈ (walkEntries s root va).dropLast, hasFlag e vmmFlagWrite = true) := by
  rw [pageUserAccessible_iff, HardwareAllows]
  have hsplit : ∀ (l : List U64) (p : U64 → Prop),
      (∀ e ∈ l, p e) ↔ (∀ e ∈ l.dropLast, p e) ∧ ∀ e ∈ l.getLast?, p e := by
    intro l p
    induction l using List.reverseRecOn with
    | nil => simp
    | append_singleton l a _ => simp [or_imp, forall_and]
  have hw := hsplit (walkEntries s root va) fun e => write = true → hasFlag e vmmFlagWrite = true
  constructor
  · rintro ⟨hc, h⟩
    obtain ⟨hfront, hlast⟩ := hw.1 fun e he => (h e he).2.2
    exact ⟨⟨fun e he => ⟨(h e he).1, (h e he).2.1⟩, fun hwr e he => hlast e he hwr⟩, hc,
      fun hwr e he => hfront e he hwr⟩
  · rintro ⟨⟨h, hlast⟩, hc, hfront⟩
    have := hw.2 ⟨fun e he hwr => hfront hwr e he, fun e he hwr => hlast hwr e he⟩
    exact ⟨hc, fun e he => ⟨(h e he).1, (h e he).2, this e he⟩⟩

/-- **The page loop** ends, and has looked at every page. -/
theorem pagesAccessible_spec (s : Vm) (root : ℕ) (write : Bool) {last : ℕ} (hlast : last < 2 ^ 64) (hl : last % pageSize = 0) (fuel va : ℕ)
    (hva : va ≤ last) (hv : va % pageSize = 0) (hfuel : (last - va) / pageSize < fuel) :
    ∃ b, pagesAccessible s root last write fuel va = some b ∧
      (b = true ↔ ∀ a, va ≤ a → a < last + pageSize → pageUserAccessible s root a write = true) := by
  induction fuel generalizing va with
  | zero => exact absurd hfuel (Nat.not_lt_zero _)
  | succ fuel ih =>
      have hpage : ∀ a, va ≤ a → a < va + pageSize →
          pageUserAccessible s root a write = pageUserAccessible s root va write := by
        intro a ha ha'
        rw [← pageUserAccessible_pageDown]
        congr 1
        simp only [pageDown, pageSize] at *
        omega
      rw [pagesAccessible]
      cases hok : pageUserAccessible s root va write with
      | false =>
          refine ⟨false, by simp, ⟨fun h => by simp at h, fun h => ?_⟩⟩
          rw [← hok]
          exact h va (Nat.le_refl _) (by simp only [pageSize]; omega)
      | true =>
          by_cases he : va = last
          · subst he
            exact ⟨true, by simp, ⟨fun _ a ha ha' => (hpage a ha ha').trans hok, fun _ => rfl⟩⟩
          have hnext : (va + pageSize) % 2 ^ 64 = va + pageSize ∧ va + pageSize ≤ last ∧
              (last - (va + pageSize)) / pageSize < fuel := by
            simp only [pageSize] at *
            omega
          obtain ⟨b, hb, hiff⟩ := ih (va + pageSize) hnext.2.1 (by simp only [pageSize] at *; omega) hnext.2.2
          rw [if_neg (by decide), if_neg he, hnext.1]
          refine ⟨b, hb, hiff.trans ⟨fun h a ha ha' => ?_, fun h a ha ha' => ?_⟩⟩
          · rcases Nat.lt_or_ge a (va + pageSize) with hlt | hge
            · exact (hpage a ha hlt).trans hok
            · exact h a hge ha'
          · exact h a (by omega) ha'

/-- `user_ptr_ok` returns, and has asked `page_user_accessible` for every address. -/
theorem userPtrOk_spec (s : Vm) (write : Bool) (hroot : root ≠ 0) (hptr : ptr < 2 ^ 64) (hlen : 1 ≤ len) (hlen' : len < 2 ^ 64)
    {fuel : ℕ} (hfuel : 2 ^ 52 ≤ fuel) :
    ∃ b, userPtrOk fuel s root ptr len write = some b ∧ (b = true ↔ ptr + len < 2 ^ 64 ∧
      ∀ a, ptr ≤ a → a < ptr + len → pageUserAccessible s root a write = true) := by
  rw [userPtrOk, if_neg (by omega), if_neg hroot]
  by_cases hwrap : ptr + len < 2 ^ 64
  · rw [if_neg (by omega), Nat.mod_eq_of_lt (show ptr + len - 1 < 2 ^ 64 by omega)]
    have hlast : pageDown (ptr + len - 1) < 2 ^ 64 := by
      simp only [pageDown, pageSize]
      omega
    obtain ⟨b, hb, hiff⟩ := pagesAccessible_spec s root write hlast
      (by simp only [pageDown, pageSize]; omega) fuel (pageDown ptr)
      (by simp only [pageDown, pageSize]; omega) (by simp only [pageDown, pageSize]; omega)
      (by simp only [pageDown, pageSize]; omega)
    refine ⟨b, hb, hiff.trans ⟨fun h => ⟨hwrap, fun a ha ha' => h a ?_ ?_⟩, fun h a ha ha' => ?_⟩⟩
    · simp only [pageDown, pageSize]
      omega
    · simp only [pageDown, pageSize]
      omega
    · -- an address of the range in the same page
      have hin : ptr ≤ max ptr (pageDown a) ∧ max ptr (pageDown a) < ptr + len ∧
          pageDown (max ptr (pageDown a)) = pageDown a := by
        simp only [pageDown, pageSize] at *
        omega
      rw [← pageUserAccessible_pageDown, ← hin.2.2, pageUserAccessible_pageDown]
      exact h.2 _ hin.1 hin.2.1
  · rw [if_pos (by omega)]
    exact ⟨false, rfl, ⟨fun h => absurd h Bool.false_ne_true, fun h => absurd h.1 hwrap⟩⟩

/-- What makes `user_ptr_ok` say what the processor does: the range wraps, or some page of it is
refused anyway, or its addresses are canonical and, for a write, the entries above those of
the pages are writable. -/
def PtrPlain (s : Vm) (root ptr len : ℕ) (write : Bool) : Prop :=
  2 ^ 64 ≤ ptr + len ∨ (∃ a, ptr ≤ a ∧ a < ptr + len ∧ pageUserAccessible s root a write = false) ∨
    ∀ a, ptr ≤ a → a < ptr + len → CanonicalVa a ∧
      (write = true → ∀ e ∈ (walkEntries s root a).dropLast, hasFlag e vmmFlagWrite = true)

/-- **`user_ptr_ok` is the processor's answer** exactly where no address of the range is
beyond bit 47 and no entry above a page read-only, or it refuses anyway; its loop ends in
all cases. -/
theorem userPtrOk_exact_iff (s : Vm) (root ptr len : ℕ) (write : Bool) (hroot : root ≠ 0)
    (hptr : ptr < 2 ^ 64) (hlen : 1 ≤ len) (hlen' : len < 2 ^ 64) :
    (∀ fuel ≥ 2 ^ 52, ∃ b, userPtrOk fuel s root ptr len write = some b ∧ (b = true ↔
      ptr + len < 2 ^ 64 ∧ ∀ a, ptr ≤ a → a < ptr + len → HardwareAllows s root a write)) ↔
      PtrPlain s root ptr len write := by
  have hspec := fun fuel (h : fuel ≥ 2 ^ 52) => userPtrOk_spec s write hroot hptr hlen hlen' h
  constructor
  · intro h
    obtain ⟨b, hb, hhard⟩ := h _ (Nat.le_refl _)
    obtain ⟨b', hb', hsoft⟩ := hspec _ (Nat.le_refl _)
    obtain rfl : b = b' := Option.some.inj (hb.symm.trans hb')
    by_cases hwrap : ptr + len < 2 ^ 64
    · right
      by_cases hall : ∀ a, ptr ≤ a → a < ptr + len → pageUserAccessible s root a write = true
      · have := (hhard.1 (hsoft.2 ⟨hwrap, hall⟩)).2
        exact Or.inr fun a ha ha' => ((hardwareAllows_iff s root a write).1 (this a ha ha')).2
      · push Not at hall
        obtain ⟨a, ha, ha', hne⟩ := hall
        exact Or.inl ⟨a, ha, ha', by simpa using hne⟩
    · exact Or.inl (by omega)
  · intro h fuel hfuel
    obtain ⟨b, hb, hsoft⟩ := hspec fuel hfuel
    refine ⟨b, hb, hsoft.trans ⟨fun ⟨hwrap, hall⟩ => ⟨hwrap, fun a ha ha' => ?_⟩, fun ⟨hwrap, hall⟩ => ⟨hwrap,
      fun a ha ha' => ((hardwareAllows_iff s root a write).1 (hall a ha ha')).1⟩⟩⟩
    rcases h with h | ⟨x, hx, hx', hne⟩ | h
    · omega
    · rw [hall x hx hx'] at hne
      cases hne
    · exact (hardwareAllows_iff s root a write).2 ⟨hall a ha ha', h a ha ha'⟩

end UserPtr

/-- The entries that point to the next frame, read-only for user code in the first one. -/
def slopingTree : Vm where
  mem f _ := frameAddr (f + 1) ||| if f = 1 then 5#64 else 7#64
  pmm := ⟨fun _ => true, 0, 0, 0⟩
  kernelPml4 := 1

/-- The hypotheses of `userPtrOk_exact_iff` are satisfiable, and its condition holds of a read
at `0x400000`. -/
theorem userPtrOk_exact_iff_read : ∃ b, userPtrOk (2 ^ 52) slopingTree 1 0x400000 1 false = some b ∧
    (b = true ↔ 0x400000 + 1 < 2 ^ 64 ∧ ∀ a, 0x400000 ≤ a → a < 0x400000 + 1 → HardwareAllows slopingTree 1 a false) :=
  (userPtrOk_exact_iff slopingTree 1 0x400000 1 false (by decide) (by norm_num) (by norm_num) (by norm_num)).2
    (Or.inr (Or.inr fun a ha ha' => ⟨Or.inl (by omega), fun h => by cases h⟩)) (2 ^ 52) (Nat.le_refl _)

/-- `user_ptr_ok` accepts a write below a read-only entry, and a read at an address that is not
canonical. -/
theorem userPtrOk_accepts_refused :
    (userPtrOk 1 slopingTree 1 0x400000 1 true = some true ∧ ¬HardwareAllows slopingTree 1 0x400000 true) ∧
      userPtrOk 1 slopingTree 1 0x1000000400000 1 false = some true ∧
        ¬HardwareAllows slopingTree 1 0x1000000400000 false := by
  decide +kernel

/-! ### `SYS_PAGEMAP` -/

/-- `struct pagemap_out`. -/
structure PagemapOut where
  pml4Idx : ℕ
  pdptIdx : ℕ
  pdIdx : ℕ
  ptIdx : ℕ
  pml4e : U64
  pdpte : U64
  pde : U64
  pte : U64
  phys : ℕ

/-- The physical address of `va` in the page that a leaf maps, `0` where it is not present. -/
def leafPhys (e : U64) (va : ℕ) : ℕ :=
  if hasFlag e vmmFlagPresent then ((e &&& pteAddrMask) ||| BitVec.ofNat 64 (va % pageSize)).toNat else 0

/-- `SYS_PAGEMAP`, where neither the PML4 nor the pointer to the result is null: what it
reports, and the frames that it reads as tables. -/
def sysPagemap (s : Vm) (pml4 va : ℕ) : PagemapOut × List ℕ :=
  let out : PagemapOut := ⟨pml4Idx va, pdptIdx va, pdIdx va, ptIdx va, s.mem pml4 (pml4Idx va), 0, 0, 0, 0⟩
  if !hasFlag out.pml4e vmmFlagPresent then (out, [pml4])
  else
    let pdpt := entryFrame out.pml4e
    let out := { out with pdpte := s.mem pdpt (pdptIdx va) }
    if !hasFlag out.pdpte vmmFlagPresent then (out, [pml4, pdpt])
    else
      let pd := entryFrame out.pdpte
      let out := { out with pde := s.mem pd (pdIdx va) }
      if !hasFlag out.pde vmmFlagPresent then (out, [pml4, pdpt, pd])
      else
        let pt := entryFrame out.pde
        let out := { out with pte := s.mem pt (ptIdx va) }
        ({ out with phys := leafPhys out.pte va }, [pml4, pdpt, pd, pt])

/-- The page-table pages of a PML4, with their levels. -/
inductive TablePage (s : Vm) (root : ℕ) : ℕ → ℕ → Prop
  | top : TablePage s root 3 root
  | next {level t i : ℕ} (ht : TablePage s root (level + 1) t) (hi : i < 512)
      (he : hasFlag (s.mem t i) vmmFlagPresent = true)
      (hh : level = 2 ∨ hasFlag (s.mem t i) vmmFlagHuge = false) :
      TablePage s root level (entryFrame (s.mem t i))

/-- A page-table page of some level. -/
def IsTable (s : Vm) (root f : ℕ) : Prop := ∃ level, TablePage s root level f

/-- The address that a leaf gives is the processor's. -/
theorem leafPhys_eq (e : U64) (va : ℕ) (h : hasFlag e vmmFlagPresent = true) :
    leafPhys e va = (e &&& pteAddrMask).toNat / 2 ^ 12 * 2 ^ 12 + va % 2 ^ 12 := by
  rw [leafPhys, if_pos h, toNat_mask_or_offset]
  have := toNat_mask_mod e
  simp only [pageSize] at *
  omega

/-- What makes `SYS_PAGEMAP` report the processor's walk: an entry is not present; or `va` is in
a page of 4 KiB, and canonical or given the address `0`; or it is in a large page, but what
the call takes for tables there happens to be some and to give the same address. -/
def PagemapPlain (s : Vm) (root va : ℕ) : Prop :=
  let hw := (hardwarePhys s root va).getD 0
  (∃ e ∈ walkEntries s root va, hasFlag e vmmFlagPresent = false) ∨
    match walkEntries s root va with
    | [_, _, _, e1] => CanonicalVa va ∨ leafPhys e1 va = 0
    | [_, _, e2] => IsTable s root (entryFrame e2) ∧ leafPhys (s.mem (entryFrame e2) (ptIdx va)) va = hw
    | [_, e3] =>
        let e2 := s.mem (entryFrame e3) (pdIdx va)
        IsTable s root (entryFrame e3) ∧ if hasFlag e2 vmmFlagPresent then IsTable s root (entryFrame e2) ∧
          leafPhys (s.mem (entryFrame e2) (ptIdx va)) va = hw else hw = 0
    | _ => True

/-- **`SYS_PAGEMAP` is the processor's walk** exactly where it meets no large page and the
address is canonical, apart from what it gets right by chance. -/
theorem sysPagemap_faithful_iff (s : Vm) (root va : ℕ) :
    ((∀ f ∈ (sysPagemap s root va).2, IsTable s root f) ∧
      (sysPagemap s root va).1.phys = (hardwarePhys s root va).getD 0) ↔ PagemapPlain s root va := by
  have h4 : IsTable s root root := ⟨3, .top⟩
  have htop : TablePage s root 3 root := .top
  have h3 := fun he => htop.next (pml4Idx_lt va) he (Or.inl rfl)
  have h2 := fun he he3 hh3 => (h3 he).next (pdptIdx_lt va) he3 (Or.inr hh3)
  have h1 := fun he he3 hh3 he2 hh2 => (h2 he he3 hh3).next (pdIdx_lt va) he2 (Or.inr hh2)
  simp only [PagemapPlain, hardwarePhys, sysPagemap, walkEntries]
  generalize s.mem root (pml4Idx va) = e4 at *
  generalize s.mem (entryFrame e4) (pdptIdx va) = e3 at *
  by_cases p4 : hasFlag e4 vmmFlagPresent = true
  swap
  · simp [p4, h4]
  have t3 : IsTable s root (entryFrame e4) := ⟨_, h3 p4⟩
  by_cases p3 : hasFlag e3 vmmFlagPresent = true
  swap
  · simp [p4, p3, h4, t3]
  generalize hE2 : s.mem (entryFrame e3) (pdIdx va) = e2 at *
  by_cases hh3 : hasFlag e3 vmmFlagHuge = true
  · by_cases p2 : hasFlag e2 vmmFlagPresent = true
    · simp [p4, p3, p2, hh3, h4, t3, hE2, and_assoc]
    · simp [p4, p3, p2, hh3, h4, t3, hE2, eq_comm (a := 0)]
  have t2 : IsTable s root (entryFrame e3) := ⟨_, h2 p4 p3 (by simpa using hh3)⟩
  by_cases p2 : hasFlag e2 vmmFlagPresent = true
  swap
  · simp [p4, p3, p2, hh3, h4, t3, t2]
  generalize hE1 : s.mem (entryFrame e2) (ptIdx va) = e1 at *
  by_cases hh2 : hasFlag e2 vmmFlagHuge = true
  · simp [p4, p3, p2, hh3, hh2, h4, t3, t2, hE1]
  have t1 : IsTable s root (entryFrame e2) := ⟨_, h1 p4 p3 (by simpa using hh3) p2 (by simpa using hh2)⟩
  by_cases p1 : hasFlag e1 vmmFlagPresent = true
  · by_cases hc : CanonicalVa va
    · simp [p4, p3, p2, p1, hh3, hh2, h4, t3, t2, t1, hc, leafPhys_eq e1 va p1, walkSize]
    · simp [p4, p3, p2, p1, hh3, hh2, h4, t3, t2, t1, hc]
  · simp [p4, p3, p2, p1, hh3, hh2, h4, t3, t2, t1, leafPhys]

/-- A tree with a page of 2 MiB at `0x200000`. -/
def largePageTree : Vm where
  mem f _ := if f = 1 then frameAddr 2 ||| 3#64 else if f = 2 then frameAddr 3 ||| 3#64
    else if f = 3 then frameAddr 512 ||| 0x83#64 else 0
  pmm := ⟨fun _ => true, 0, 0, 0⟩
  kernelPml4 := 1

/-- `SYS_PAGEMAP` says of an address in a page of 2 MiB that it is not mapped, after a look at
the page itself. -/
theorem sysPagemap_reads_largePage :
    (sysPagemap largePageTree 1 0xFFFF800000001234).1.phys = 0 ∧
      hardwarePhys largePageTree 1 0xFFFF800000001234 = some 0x201234 ∧
      512 ∈ (sysPagemap largePageTree 1 0xFFFF800000001234).2 ∧ ¬IsTable largePageTree 1 512 := by
  refine ⟨by decide +kernel, by decide +kernel, by decide +kernel, ?_⟩
  have htable : ∀ level f, TablePage largePageTree 1 level f → f = 4 - level ∧ 0 < level ∧ level ≤ 3 := by
    intro level f h
    induction h with
    | top => exact ⟨rfl, by decide, by decide⟩
    | @next level t i ht hi he hh ih =>
        obtain ⟨rfl, -, hl⟩ := ih
        obtain rfl | rfl | rfl : level = 0 ∨ level = 1 ∨ level = 2 := by omega
        · change _ ∨ hasFlag (frameAddr 512 ||| 0x83#64) vmmFlagHuge = false at hh
          exact absurd hh (by decide +kernel)
        · change entryFrame (frameAddr 3 ||| 3#64) = 3 ∧ _
          decide +kernel
        · change entryFrame (frameAddr 2 ||| 3#64) = 2 ∧ _
          decide +kernel
  rintro ⟨level, h⟩
  have := htable level 512 h
  omega

end LighthOS
