/-
# The program and stack of a process

What `process_spawn_from_memory` and `process_execve_from_memory` of
`src/kernel/process.c` share: the program, its interpreter, the stack pages and
`build_user_stack`, which lays out the argument and environment strings and, below
them, `argc`, the pointers and the auxiliary vector.
-/

import LighthOS.Kernel.Elf

namespace LighthOS

/-- `USER_STACK_TOP`. -/
abbrev userStackTop : ℕ := 0x800000

/-- The addresses of the stack pages, in the order they are mapped. -/
def stackPages : List ℕ := (List.range 4).map fun i => userStackTop - (i + 1) * pageSize

/-- `stack_put_byte`. -/
def stackPutByte (s : Vm) (pml4 va : ℕ) (b : UInt8) : Option (Bool × Vm) :=
  putUser s pml4 va 1 fun _ => b

/-- `stack_put_u64`. -/
def stackPutU64 (s : Vm) (pml4 va v : ℕ) : Option (Bool × Vm) :=
  putUser s pml4 va 8 (byteOf (BitVec.ofNat 64 v))

/-- The bytes of a string and its final zero at `va`. -/
def putString (pml4 va : ℕ) (str : List UInt8) (s : Vm) : Option (Bool × Vm) :=
  Loop.run (fun (p : UInt8 × ℕ) s => stackPutByte s pml4 ((va + p.2) % 2 ^ 64) p.1)
    (str ++ [0]).zipIdx s

/-- The loops over the strings, last string first: the stack pointer below them and
their addresses, none where a page is missing. -/
def putStrings (pml4 : ℕ) : List (List UInt8) → ℕ → List ℕ → Vm → Option (Option (ℕ × List ℕ) × Vm)
  | [], sp, ptrs, s => some (some (sp, ptrs), s)
  | str :: rest, sp, ptrs, s =>
      let sp := (sp + 2 ^ 64 - (str.length + 1)) % 2 ^ 64
      match putString pml4 sp str s with
      | none => none
      | some (false, s) => some (none, s)
      | some (true, s) => putStrings pml4 rest sp (sp :: ptrs) s

/-- The words that `build_user_stack` stores from the final stack pointer on. -/
def stackWords (argPtrs envPtrs : List ℕ) (auxv : List (ℕ × ℕ)) : List ℕ :=
  [argPtrs.length] ++ argPtrs ++ [0] ++ envPtrs ++ [0] ++ auxv.flatMap (fun p => [p.1, p.2]) ++ [0, 0]

/-- The words, one after the other. -/
def putWords (pml4 wp : ℕ) (words : List ℕ) (s : Vm) : Option (Bool × Vm) :=
  Loop.run (fun (p : ℕ × ℕ) s => stackPutU64 s pml4 ((wp + 8 * p.2) % 2 ^ 64) p.1) words.zipIdx s

/-- `build_user_stack`: the stack pointer, `0` for failure. -/
def buildUserStack (s : Vm) (pml4 : ℕ) (argv envp : List (List UInt8)) (auxv : List (ℕ × ℕ)) :
    Option (ℕ × Vm) :=
  match putStrings pml4 envp.reverse userStackTop [] s with
  | none => none
  | some (none, s) => some (0, s)
  | some (some (sp, envPtrs), s) =>
      match putStrings pml4 argv.reverse sp [] s with
      | none => none
      | some (none, s) => some (0, s)
      | some (some (sp, argPtrs), s) =>
          let words := stackWords argPtrs envPtrs auxv
          let wp := (sp / 16 * 16 + 2 ^ 64 - words.length * 8) % 2 ^ 64 / 16 * 16
          (putWords pml4 wp words s).map fun r => (if r.1 then wp else 0, r.2)

/-- The auxiliary vector where there is an interpreter. -/
def programAuxv (elf : Image) (mainEntry interpEntry : ℕ) : List (ℕ × ℕ) :=
  if interpEntry = 0 then []
  else [(3, elfPhdrVaddr elf), (4, elf.ePhentsize), (5, elf.ePhnum), (7, 0x40000000), (9, mainEntry),
    (6, pageSize)]

/-- The interpreter that the program asks for; `files` is what the file system and
the heap give for a path.  The entry point is `0` where there is none. -/
def loadInterp (s : Vm) (pml4 : ℕ) (elf : Image) (files : List UInt8 → Option Image) :
    Option (ℕ × Vm) :=
  match (elfFindInterp elf 256).bind files with
  | none => some (0, s)
  | some img => elfLoad img s pml4

/-- The program, its interpreter and its stack: the entry point and the stack
pointer, none for failure. -/
def loadProgram (s : Vm) (pml4 : ℕ) (elf : Image) (files : List UInt8 → Option Image)
    (argv envp : List (List UInt8)) : Option (Option (ℕ × ℕ) × Vm) :=
  (elfLoad elf s pml4).bind fun main =>
    if main.1 = 0 then some (none, main.2)
    else (loadInterp main.2 pml4 elf files).bind fun interp =>
      (Loop.run (mapZeroPage pml4 (vmmFlagWrite ||| vmmFlagUser)) stackPages interp.2).bind fun stack =>
        if !stack.1 then some (none, stack.2)
        else (buildUserStack stack.2 pml4 argv envp (programAuxv elf main.1 interp.1)).map fun built =>
          (if built.1 = 0 then none
            else some (if interp.1 = 0 then main.1 else interp.1, built.1), built.2)

/-- The entry points of a program and of its interpreter, where their headers are
accepted. -/
def EntryOf (elf : Image) (files : List UInt8 → Option Image) (a : ℕ) : Prop :=
  a ∈ ((elf :: ((elfFindInterp elf 256).bind files).toList).filter elfValidate).map Image.eEntry

theorem EntryOf.main {elf : Image} (files : List UInt8 → Option Image) (h : elfValidate elf = true) :
    EntryOf elf files elf.eEntry :=
  List.mem_map_of_mem (List.mem_filter.2 ⟨List.mem_cons_self, h⟩)

theorem EntryOf.interp {elf img : Image} {files : List UInt8 → Option Image}
    (hi : (elfFindInterp elf 256).bind files = some img) (h : elfValidate img = true) :
    EntryOf elf files img.eEntry := by
  refine List.mem_map_of_mem (List.mem_filter.2 ⟨List.mem_cons_of_mem _ ?_, h⟩)
  rw [hi]
  exact List.mem_cons_self

theorem elfLoad_entry {f : Image} {s s' : Vm} {pml4 a : ℕ} (h : elfLoad f s pml4 = some (a, s')) :
    a = 0 ∨ elfValidate f = true ∧ a = f.eEntry := by
  have hentry : (f.eEntry + 0) % 2 ^ 64 = f.eEntry := by
    have hlt : f.eEntry < 256 ^ 8 := readLe_lt f.data 24 8
    rw [Nat.add_zero]
    exact Nat.mod_eq_of_lt (by omega)
  unfold elfLoad elfLoadAt at h
  split_ifs at h with _ hvalid
  · cases h
    exact Or.inl rfl
  · cases h
    exact Or.inl rfl
  · split at h
    · cases h
    · cases h
      exact Or.inl rfl
    · obtain ⟨rfl, -⟩ := Prod.mk.inj (Option.some.inj h)
      exact Or.inr ⟨by simpa using hvalid, hentry⟩

/-- **A program starts at an entry point** of its image or of its interpreter's. -/
theorem loadProgram_entry {s s' : Vm} {pml4 entry rsp : ℕ} {elf : Image}
    {files : List UInt8 → Option Image} {argv envp : List (List UInt8)}
    (h : loadProgram s pml4 elf files argv envp = some (some (entry, rsp), s')) : EntryOf elf files entry := by
  unfold loadProgram at h
  obtain ⟨⟨main, s₁⟩, hmain, h⟩ := Option.bind_eq_some_iff.1 h
  simp only at h
  split_ifs at h with h₀
  · cases h
  obtain ⟨⟨interp, s₂⟩, hinterp, h⟩ := Option.bind_eq_some_iff.1 h
  obtain ⟨⟨ok, s₃⟩, -, h⟩ := Option.bind_eq_some_iff.1 h
  cases ok with
  | false => cases h
  | true =>
      obtain ⟨⟨sp, s₄⟩, -, h⟩ := Option.map_eq_some_iff.1 h
      obtain ⟨h, -⟩ := Prod.mk.inj h
      simp only at h
      by_cases hi : interp = 0
      · rw [if_pos hi] at h
        split_ifs at h
        obtain ⟨rfl, -⟩ := Prod.mk.inj (Option.some.inj h)
        obtain ⟨hvalid, rfl⟩ := (elfLoad_entry hmain).resolve_left h₀
        exact .main files hvalid
      · rw [if_neg hi] at h
        split_ifs at h
        obtain ⟨rfl, -⟩ := Prod.mk.inj (Option.some.inj h)
        unfold loadInterp at hinterp
        split at hinterp
        · cases hinterp
          exact absurd rfl hi
        · next img himg =>
            obtain ⟨hvalid, rfl⟩ := (elfLoad_entry hinterp).resolve_left hi
            exact .interp himg hvalid

end LighthOS
