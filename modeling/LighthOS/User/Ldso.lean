/-
# The dynamic linker

`user/ldso/ld_main.c`.  The memory of the process is a function from addresses to bytes;
pointers are 64-bit numbers, with `0` for `NULL`.  What the system calls find is part of an
environment, which may be another one for each call: the files that can be opened, and
whether an anonymous mapping at an address succeeds.  The linker's own variables
(`g_libs`, `g_nlibs`, `g_dyn_next`, `g_main`) are not in this memory, so wild stores to
them are not part of the model.  Messages on the console are left out; `die` ends the
process.

Loops of the source that no number bounds (over a dynamic section, over the characters of
a string) go on for at most `fuel` rounds.

The state also has a list of events, for specifications only: the stores to the memory
with the objects that were loaded at the time, and the slots that were set for a name.
-/

import LighthOS.Lib.Prog
import LighthOS.Kernel.Elf
import LighthOS.Fs.Fat

namespace LighthOS

/-! ### Memory -/

/-- The bytes of the address space. -/
abbrev UMem := ℕ → UInt8

namespace UMem

/-- A little-endian number of `n` bytes. -/
def read (m : UMem) (addr n : ℕ) : ℕ := readLe (fun i => m (u64 (addr + i))) 0 n

/-- Store `n` bytes; the address space wraps around. -/
def store (m : UMem) (addr n : ℕ) (src : ℕ → UInt8) : UMem := fun a =>
  let k := u64 (a + 2 ^ 64 - u64 addr)
  if k < n then src k else m a

/-- `strcmp(p, name) == 0` for a C string `name`. -/
def strEq (m : UMem) (p : ℕ) : Bytes → Bool
  | [] => m (u64 p) == 0
  | c :: cs => c != 0 && m (u64 p) == c && strEq m (p + 1) cs

/-- A memory or a file with these words, and zeros elsewhere. -/
def ofWords (words : List (ℕ × ℕ)) : ℕ → UInt8 := fun a =>
  match words.find? fun w => w.1 ≤ a ∧ a < w.1 + 8 with
  | some w => UInt8.ofNat (w.2 / 256 ^ (a - w.1))
  | none => 0

end UMem

/-! ### Objects -/

/-- `loaded_obj_t`. -/
structure LoadedObj where
  base : ℕ
  span : ℕ
  path : Bytes
  dyn : ℕ
  symtab : ℕ
  strtab : ℕ
  strsz : ℕ
  nsyms : ℕ
  rela : ℕ
  relasz : ℕ
  jmprela : ℕ
  pltrelsz : ℕ
  hash : ℕ
deriving DecidableEq

/-- The fields of an `elf64_sym_t`. -/
structure ElfSym where
  stName : ℕ
  stInfo : ℕ
  stShndx : ℕ
  stValue : ℕ
  stSize : ℕ

/-- `symtab[j]`. -/
def LoadedObj.sym (o : LoadedObj) (m : UMem) (j : ℕ) : ElfSym :=
  let a := o.symtab + 24 * j
  ⟨m.read a 4, m.read (a + 4) 1, m.read (a + 6) 2, m.read (a + 8) 8, m.read (a + 16) 8⟩

/-- The fields of an `elf64_rela_t`. -/
structure ElfRela where
  rOffset : ℕ
  rInfo : ℕ
  rAddend : ℕ

/-- `rela[i]`. -/
def relaAt (m : UMem) (rela i : ℕ) : ElfRela :=
  let a := rela + 24 * i
  ⟨m.read a 8, m.read (a + 8) 8, m.read (a + 16) 8⟩

/-- What happened, for specifications. -/
inductive LdEvent where
  | store (before after : UMem) (objs : List LoadedObj)
  | slot (addr : ℕ) (name : Bytes) (value : ℕ)

/-- The state of the linker. -/
structure LdState where
  mem : UMem
  main : LoadedObj
  libs : List LoadedObj
  dynNext : ℕ
  log : List LdEvent

/-- `g_main` and `g_libs`. -/
def LdState.objs (s : LdState) : List LoadedObj := s.main :: s.libs

/-- What the system calls find. -/
structure LdEnv where
  file : Bytes → Option Image
  mapOk : ℕ → ℕ → Bool
  ops : ℕ → UInt8

/-- Programs of the linker; the reason to exit is the message of `die`. -/
abbrev Ld (α : Type) := Prog LdState String α

/-- A store to the memory. -/
def ldStore (addr n : ℕ) (src : ℕ → UInt8) : Ld Unit :=
  Prog.modify fun s =>
    let mem := s.mem.store addr n src
    { s with mem, log := .store s.mem mem s.objs :: s.log }

/-- The characters of a C string. -/
def cstr : ℕ → ℕ → Ld Bytes
  | 0, _ => Prog.runsOn
  | fuel + 1, p => do
      let c := (← Prog.get).mem (u64 p)
      if c = 0 then pure []
      else do
        let cs ← cstr fuel (p + 1)
        pure (c :: cs)

/-! ### Loading -/

/-- The effect of an entry of the dynamic section. -/
def LoadedObj.dynEntry (obj : LoadedObj) (tag v : ℕ) : LoadedObj :=
  match tag with
  | 6 => { obj with symtab := u64 (obj.base + v) }
  | 5 => { obj with strtab := u64 (obj.base + v) }
  | 10 => { obj with strsz := v }
  | 7 => { obj with rela := u64 (obj.base + v) }
  | 8 => { obj with relasz := v }
  | 23 => { obj with jmprela := u64 (obj.base + v) }
  | 2 => { obj with pltrelsz := v }
  | 4 => { obj with hash := u64 (obj.base + v) }
  | _ => obj

/-- The loop of `parse_dynamic`. -/
def parseEntries (m : UMem) : ℕ → ℕ → LoadedObj → Ld LoadedObj
  | 0, _, _ => Prog.runsOn
  | fuel + 1, d, obj =>
      if m.read d 8 = 0 then pure obj
      else parseEntries m fuel (d + 16) (obj.dynEntry (m.read d 8) (m.read (d + 8) 8))

/-- `parse_dynamic`. -/
def parseDynamic (fuel : ℕ) (obj : LoadedObj) : Ld LoadedObj := do
  let m := (← Prog.get).mem
  let obj ← parseEntries m fuel obj.dyn obj
  if obj.hash ≠ 0 then pure { obj with nsyms := m.read (obj.hash + 4) 4 }
  else pure obj

/-- A program header at an address or an offset. -/
def phdrAt (data : ℕ → UInt8) (off : ℕ) : Phdr :=
  ⟨readLe data off 4, readLe data (off + 8) 8, readLe data (off + 16) 8,
    readLe data (off + 32) 8, readLe data (off + 40) 8⟩

/-- The program headers of a shared object, if `load_so` accepts the header of the file. -/
def soPhdrs (f : Image) : Option (List Phdr) :=
  if f.size < 64 ∨ f.magic ≠ 0x464C457F ∨ f.eType ≠ 3 ∨ f.ePhnum = 0 ∨ 16 < f.ePhnum then none
  else if 2 ^ 63 ≤ f.ePhoff ∨ f.size < f.ePhoff + f.ePhnum * 56 then none
  else some ((List.range f.ePhnum).map fun i => phdrAt f.data (f.ePhoff + i * 56))

/-- `min_v` and `max_v`. -/
def soBounds (phdrs : List Phdr) : ℕ × ℕ :=
  phdrs.foldl (fun b ph =>
    if ph.pType ≠ 1 then b
    else (min b.1 (pageDown ph.pVaddr), max b.2 (pageUp (u64 (ph.pVaddr + ph.pMemsz))))) (2 ^ 64 - 1, 0)

/-- The loop of `load_so` that reads the segments; whether they could be read. -/
def loadSegments (f : Image) (base : ℕ) : List Phdr → Ld Bool
  | [] => pure true
  | ph :: phdrs =>
      if ph.pType ≠ 1 ∨ ph.pFilesz = 0 then loadSegments f base phdrs
      else if 2 ^ 63 ≤ ph.pOffset then pure false
      else do
        let n := min ph.pFilesz (f.size - ph.pOffset)
        ldStore (base + ph.pVaddr) n fun k => f.data (ph.pOffset + k)
        if n ≠ ph.pFilesz then pure false
        else loadSegments f base phdrs

/-- The address of the dynamic section, `0` for none. -/
def soDyn (base : ℕ) (phdrs : List Phdr) : ℕ :=
  match phdrs.find? (·.pType == 2) with
  | some ph => u64 (base + ph.pVaddr)
  | none => 0

/-- `DYN_REGION_START`. -/
abbrev dynRegionStart : ℕ := 0x30000000

/-- `DYN_REGION_END`. -/
abbrev dynRegionEnd : ℕ := 0x3FFFFFFF

/-- `MAX_LIBS`. -/
abbrev maxLibs : ℕ := 8

/-- The object before `parse_dynamic`. -/
def newObj (base span : ℕ) (path : Bytes) (dyn : ℕ) : LoadedObj :=
  ⟨base, span, path, dyn, 0, 0, 0, 0, 0, 0, 0, 0, 0⟩

/-- `load_so`; nothing where it returns `-1`. -/
def loadSo (env : LdEnv) (fuel : ℕ) (path : Bytes) : Ld (Option LoadedObj) :=
  match (env.file path).bind fun f => (soPhdrs f).map (f, ·) with
  | none => pure none
  | some (f, phdrs) =>
      let minV := (soBounds phdrs).1
      let span := u64 ((soBounds phdrs).2 + 2 ^ 64 - minV)
      if minV = 2 ^ 64 - 1 then pure none
      else do
        let region := (← Prog.get).dynNext
        if dynRegionEnd < u64 (region + span) ∨ env.mapOk region span = false then pure none
        else do
          let base := u64 (region + 2 ^ 64 - minV)
          ldStore region span fun _ => 0
          Prog.modify fun s => { s with dynNext := u64 (region + span + 0xFFFFF) / 0x100000 * 0x100000 }
          if (← loadSegments f base phdrs) = false then pure none
          else if soDyn base phdrs = 0 then pure none
          else do
            let o ← parseDynamic fuel (newObj base span (path.take 127) (soDyn base phdrs))
            pure (some o)

/-! ### Symbols -/

/-- The symbols that `lookup_in` takes for a definition of a name. -/
def LoadedObj.defines (o : LoadedObj) (m : UMem) (name : Bytes) (j : ℕ) : Bool :=
  let s := o.sym m j
  s.stShndx != 0 && decide (s.stName < o.strsz) && (s.stInfo % 16 == 1 || s.stInfo % 16 == 2) &&
    m.strEq (o.strtab + s.stName) name

/-- `lookup_in`. -/
def lookupIn (m : UMem) (o : LoadedObj) (name : Bytes) : ℕ :=
  if o.symtab = 0 ∨ o.strtab = 0 ∨ o.nsyms = 0 then 0
  else match (List.range o.nsyms).find? (o.defines m name) with
    | some j => u64 (o.base + (o.sym m j).stValue)
    | none => 0

/-- The first address that `lookup_in` finds. -/
def lookupFirst (m : UMem) (name : Bytes) : List LoadedObj → ℕ
  | [] => 0
  | o :: objs => if lookupIn m o name ≠ 0 then lookupIn m o name else lookupFirst m name objs

/-- `resolve_symbol`. -/
def resolveSymbol (s : LdState) (name : Bytes) : ℕ := lookupFirst s.mem name s.objs

/-! ### Relocations -/

/-- The name of the symbol of a relocation: the address of its characters. -/
def relaName (m : UMem) (me : LoadedObj) (sidx : ℕ) : Option ℕ :=
  if me.symtab ≠ 0 ∧ me.strtab ≠ 0 ∧ sidx < me.nsyms ∧ (me.sym m sidx).stName < me.strsz then
    some (me.strtab + (me.sym m sidx).stName)
  else none

/-- `R_X86_64_GLOB_DAT` and `R_X86_64_JUMP_SLOT`. -/
def setSlot (addr : ℕ) (name : Bytes) : Ld Unit := do
  let value := resolveSymbol (← Prog.get) name
  if value = 0 then Prog.exit ""
  else do
    ldStore addr 8 (leBytes value)
    Prog.modify fun s => { s with log := .slot addr name value :: s.log }

/-- The body of the loop of `apply_rela`. -/
def applyRelaEntry (fuel : ℕ) (me : LoadedObj) (rela i : ℕ) : Ld Unit := do
  let m := (← Prog.get).mem
  let r := relaAt m rela i
  let sidx := r.rInfo / 2 ^ 32
  let addr := u64 (me.base + r.rOffset)
  match r.rInfo % 2 ^ 32, relaName m me sidx with
  | 8, _ => ldStore addr 8 (leBytes (u64 (me.base + r.rAddend)))
  | 6, none => Prog.exit "bogus symbol index"
  | 6, some p => do setSlot addr (← cstr fuel p)
  | 7, none => Prog.exit "bogus symbol index"
  | 7, some p => do setSlot addr (← cstr fuel p)
  | 1, some p => do
      let name ← cstr fuel p
      let value := resolveSymbol (← Prog.get) name
      ldStore addr 8 (leBytes (u64 (value + r.rAddend)))
  | 2, some p => do
      let name ← cstr fuel p
      let value := resolveSymbol (← Prog.get) name
      ldStore addr 4 (leBytes (u64 (value + r.rAddend + 2 ^ 64 - addr)))
  | 4, some p => do
      let name ← cstr fuel p
      let value := resolveSymbol (← Prog.get) name
      ldStore addr 4 (leBytes (u64 (value + r.rAddend + 2 ^ 64 - addr)))
  | 5, some p => do
      let name ← cstr fuel p
      let src := lookupFirst m name (← Prog.get).libs
      if src = 0 then Prog.exit ""
      else ldStore addr (me.sym m sidx).stSize fun k => m (u64 (src + k))
  | _, _ => pure ()

/-- `apply_rela`. -/
def applyRela (fuel : ℕ) (me : LoadedObj) (rela bytes : ℕ) : Ld Unit :=
  (List.range (bytes / 24)).foldlM (fun _ i => applyRelaEntry fuel me rela i) ()

/-- The relocations of an object. -/
def relocate (fuel : ℕ) (o : LoadedObj) : Ld Unit := do
  if o.rela ≠ 0 ∧ o.relasz ≠ 0 then applyRela fuel o o.rela o.relasz else pure ()
  if o.jmprela ≠ 0 ∧ o.pltrelsz ≠ 0 then applyRela fuel o o.jmprela o.pltrelsz else pure ()

/-! ### Dependencies -/

/-- What stands behind the last `/` of a path. -/
def baseName (path : Bytes) : Bytes := (path.reverse.takeWhile (· != 47)).reverse

/-- `lib_already_loaded`. -/
def libAlreadyLoaded (s : LdState) (name : Bytes) : Bool := s.libs.any fun o => baseName o.path == name

/-- The path that `load_needed` builds in `full`. -/
def libPath (name : Bytes) : Bytes := ([47, 108, 105, 98, 47] ++ name).take 127

/-- `g_nlibs++`: the object in the next slot counts as loaded. -/
def addLib (o : LoadedObj) : Ld Unit := Prog.modify fun s => { s with libs := s.libs ++ [o] }

/-- The loop of `load_needed` from the entry at `d` on. -/
def loadNeededFrom (env : LdEnv) : ℕ → LoadedObj → ℕ → Ld Unit
  | 0, _, _ => Prog.runsOn
  | fuel + 1, obj, d => do
      let m := (← Prog.get).mem
      if m.read d 8 = 0 then pure ()
      else if m.read d 8 ≠ 1 then loadNeededFrom env fuel obj (d + 16)
      else do
        let name ← cstr fuel (obj.strtab + m.read (d + 8) 8)
        if libAlreadyLoaded (← Prog.get) name then loadNeededFrom env fuel obj (d + 16)
        else if maxLibs ≤ (← Prog.get).libs.length then Prog.exit "too many DT_NEEDED"
        else do
          match ← loadSo env fuel (libPath name) with
          | none => Prog.exit "failed to load library"
          | some o => do
              addLib o
              if o.dyn = 0 ∨ o.strtab = 0 then pure () else loadNeededFrom env fuel o o.dyn
              loadNeededFrom env fuel obj (d + 16)

/-- `load_needed`. -/
def loadNeeded (env : LdEnv) (fuel : ℕ) (obj : LoadedObj) : Ld Unit :=
  if obj.dyn = 0 ∨ obj.strtab = 0 then pure () else loadNeededFrom env fuel obj obj.dyn

/-! ### The calls of a program -/

/-- `dl_dlopen`: the index of the library, nothing for `NULL`. -/
def dlDlopen (env : LdEnv) (fuel : ℕ) (path : Option Bytes) : Ld (Option ℕ) :=
  match path with
  | none => pure none
  | some path => do
      let s ← Prog.get
      match s.libs.findIdx? fun o => baseName o.path == baseName path with
      | some i => pure (some i)
      | none =>
          if maxLibs ≤ s.libs.length then pure none
          else do
            match ← loadSo env fuel path with
            | none => pure none
            | some o => do
                addLib o
                loadNeeded env fuel o
                ((← Prog.get).libs.drop s.libs.length).foldlM (fun _ o => relocate fuel o) ()
                pure (some s.libs.length)

/-- `dl_dlsym`; `0` for `NULL`. -/
def dlDlsym (s : LdState) (handle : Option LoadedObj) (name : Option Bytes) : ℕ :=
  match name with
  | none => 0
  | some name => match handle with
    | some o => lookupIn s.mem o name
    | none => resolveSymbol s name

/-- The dynamic section of the main program, `0` for none (`init_main_obj`). -/
def mainDyn (m : UMem) (phdrs phnum : ℕ) : ℕ :=
  match (List.range phnum).find? fun i => m.read (phdrs + 56 * i) 4 == 2 with
  | some i => m.read (phdrs + 56 * i + 16) 8
  | none => 0

/-- `DL_IFACE_ADDR`. -/
abbrev dlIfaceAddr : ℕ := 0x50000000

/-- `install_dl_iface`. -/
def installDlIface (env : LdEnv) : Ld Unit :=
  if env.mapOk dlIfaceAddr 4096 = false then pure ()
  else do
    ldStore dlIfaceAddr 4096 fun _ => 0
    ldStore dlIfaceAddr 32 env.ops

/-- A memory in which some addresses cannot be read. -/
abbrev ByteMap (β : Type) := ℕ → Option β

/-- The little-endian number in the `n` bytes from `a` on. -/
def ByteMap.load (m : ByteMap UInt8) (a : ℕ) : ℕ → Option ℕ
  | 0 => some 0
  | n + 1 => (m a).bind fun b => (load m (a + 1) n).map fun r => b.toNat + 256 * r

/-- The loop `while (*p) p++; p++` of `find_auxv`. -/
def skipTable (m : ByteMap UInt8) : ℕ → ℕ → Option ℕ
  | 0, _ => none
  | fuel + 1, p => (m.load p 8).bind fun w =>
      if w = 0 then some ((p + 8) % 2 ^ 64) else skipTable m fuel ((p + 8) % 2 ^ 64)

/-- The loop over the pairs. -/
def scanAuxv (m : ByteMap UInt8) (type : ℕ) : ℕ → ℕ → Option ℕ
  | 0, _ => none
  | fuel + 1, p => (m.load p 8).bind fun key =>
      if key = 0 then some 0
      else if key = type then m.load ((p + 8) % 2 ^ 64) 8
      else scanAuxv m type fuel ((p + 16) % 2 ^ 64)

/-- `find_auxv`; none where it leaves the memory of the program or the fuel ends. -/
def findAuxv (m : ByteMap UInt8) (fuel stack type : ℕ) : Option ℕ :=
  (m.load stack 8).bind fun argc =>
    (skipTable m fuel ((stack + 8 * (1 + argc + 1)) % 2 ^ 64)).bind (scanAuxv m type fuel)

/-- `ld_main` from where `g_main` is set; the entry point of the program. -/
def ldMainFrom (env : LdEnv) (fuel entry : ℕ) : Ld ℕ := do
  let main := (← Prog.get).main
  if main.dyn = 0 ∨ main.strtab = 0 then Prog.exit "main dyn incomplete"
  else do
    loadNeeded env fuel main
    (← Prog.get).libs.foldlM (fun _ o => relocate fuel o) ()
    relocate fuel main
    installDlIface env
    pure entry

/-- `ld_main` on a fresh linker: `g_libs` is empty, and `main_obj` has not been set yet. -/
def ldMain (env : LdEnv) (fuel stack : ℕ) (mem : UMem) : Prog.Result LdState String ℕ :=
  let s : LdState := ⟨mem, newObj 0 0 [109, 97, 105, 110] 0, [], dynRegionStart, []⟩
  let auxv := findAuxv (fun a => some (mem a)) fuel stack
  match auxv 3, auxv 5, auxv 9 with
  | some phdr, some phnum, some entry =>
      if phdr = 0 ∨ phnum = 0 ∨ entry = 0 then .exit "missing auxv" s
      else if mainDyn mem phdr (u32 phnum) = 0 then .exit "main lacks PT_DYNAMIC" s
      else (do
        let main ← parseDynamic fuel (newObj 0 0 [109, 97, 105, 110] (mainDyn mem phdr (u32 phnum)))
        Prog.modify fun s => { s with main }
        ldMainFrom env fuel entry : Ld ℕ) s
  | _, _, _ => .runsOn s

/-! ### What loading changes -/

section Loading

open Prog

variable {R : LdState → LdState → Prop} [Std.Refl R]

theorem along_parseEntries (m : UMem) (fuel d : ℕ) (obj : LoadedObj) : Along R (parseEntries m fuel d obj) := by
  induction fuel generalizing d obj with
  | zero => exact .runsOn
  | succ fuel ih => exact .ite (.pure _) (ih _ _)

variable [IsTrans LdState R]

theorem along_parseDynamic (fuel : ℕ) (obj : LoadedObj) : Along R (parseDynamic fuel obj) :=
  .bind .get fun _ => .bind (along_parseEntries _ _ _ _) fun _ => .ite (.pure _) (.pure _)

/-- `parse_dynamic` only reads. -/
theorem parseDynamic_state (fuel : ℕ) (obj : LoadedObj) (s : LdState) : (parseDynamic fuel obj s).state = s :=
  (along_parseDynamic (R := Eq) fuel obj s).symm

theorem along_loadSegments (hstore : ∀ addr n src, Along R (ldStore addr n src)) (f : Image) (base : ℕ)
    (phdrs : List Phdr) : Along R (loadSegments f base phdrs) := by
  induction phdrs with
  | nil => exact .pure _
  | cons ph phdrs ih =>
      refine .ite ih (.ite (.pure _) (.bind (hstore _ _ _) fun _ => ?_))
      exact .ite (.pure _) ih

/-- **`load_so`** stores to the memory and moves `g_dyn_next`. -/
theorem along_loadSo (hstore : ∀ addr n src, Along R (ldStore addr n src))
    (hnext : ∀ next, Along R (Prog.modify fun s => { s with dynNext := next } : Ld Unit))
    (env : LdEnv) (fuel : ℕ) (path : Bytes) : Along R (loadSo env fuel path) := by
  unfold loadSo
  split
  · exact .pure _
  · refine .ite (.pure _) (.bind .get fun s => .ite (.pure _) (.bind (hstore _ _ _) fun _ => ?_))
    refine .bind (hnext _) fun _ => .bind (along_loadSegments hstore _ _ _) fun ok => ?_
    exact .ite (.pure _) (.ite (.pure _) (.bind (along_parseDynamic _ _) fun _ => .pure _))

end Loading

end LighthOS
