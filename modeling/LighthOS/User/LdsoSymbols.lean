/-
# The addresses of symbols

`resolve_symbol` asks the main program first and then the libraries in the order in which
they were loaded.  Objects are relocated at different times, `ld_main` relocates the first
ones and each `dl_dlopen` those that it loads, while the list of libraries grows at its end
and never changes otherwise: a `load_so` that fails leaves the next slot of `g_libs` alone.
So a name that has an address keeps it, and all slots for a name are set to the same
address, whenever they are set (`symbols_coherent`).

Symbol and string tables are in the memory that relocations store to.  `TablesKept` says
that no store of a run hits a table of an object that is loaded at the time.  What the
linker does is then a sequence of steps that keep the addresses (`Advances`), whether a
call succeeds, fails, ends the process or is interrupted.
-/

import LighthOS.User.Ldso

namespace LighthOS

variable {m m' m'' : UMem} {o : LoadedObj} {s s' s'' : LdState}

/-! ### Tables -/

/-- The bytes of the symbol table, and of the strings of the string table with their final zeros. -/
def LoadedObj.TableByte (o : LoadedObj) (m : UMem) (a : ℕ) : Prop :=
  (∃ k < 24 * o.nsyms, a = u64 (o.symtab + k)) ∨
    ∃ off < o.strsz, ∃ k, (∀ i < k, m (u64 (o.strtab + off + i)) ≠ 0) ∧ a = u64 (o.strtab + off + k)

/-- The tables of an object are not overwritten. -/
def TablesSame (m m' : UMem) (o : LoadedObj) : Prop := ∀ a, o.TableByte m a → m' a = m a

/-- A store that overwrites no table of an object that is loaded. -/
def LdEvent.KeepsTables : LdEvent → Prop
  | .store before after objs => ∀ o ∈ objs, TablesSame before after o
  | .slot _ _ _ => True

/-- **No table of a loaded object was overwritten.** -/
def LdState.TablesKept (s : LdState) : Prop := ∀ e ∈ s.log, e.KeepsTables

theorem TablesSame.refl (m : UMem) (o : LoadedObj) : TablesSame m m o := fun _ _ => rfl

theorem TablesSame.tableByte {a : ℕ} (h : TablesSame m m' o) (ha : o.TableByte m a) : o.TableByte m' a := by
  rcases ha with hsym | ⟨off, hoff, k, hk, rfl⟩
  · exact Or.inl hsym
  · refine Or.inr ⟨off, hoff, k, fun i hi => ?_, rfl⟩
    rw [h _ (Or.inr ⟨off, hoff, i, fun j hj => hk j (hj.trans hi), rfl⟩)]
    exact hk i hi

theorem TablesSame.trans (h : TablesSame m m' o) (h' : TablesSame m' m'' o) : TablesSame m m'' o :=
  fun a ha => (h' a (h.tableByte ha)).trans (h a ha)

theorem UMem.read_congr {a n : ℕ} (h : ∀ i < n, m' (u64 (a + i)) = m (u64 (a + i))) : m'.read a n = m.read a n :=
  readLe_congr fun i hi => by simpa using h i hi

/-- A string of the table is compared with the same result. -/
theorem TablesSame.strEq {off : ℕ} (h : TablesSame m m' o) (hoff : off < o.strsz) (name : Bytes) (k : ℕ)
    (hk : ∀ i < k, m (u64 (o.strtab + off + i)) ≠ 0) :
    m'.strEq (o.strtab + off + k) name = m.strEq (o.strtab + off + k) name := by
  have hsame := h _ (Or.inr ⟨off, hoff, k, hk, rfl⟩)
  induction name generalizing k with
  | nil => rw [UMem.strEq, UMem.strEq, hsame]
  | cons c cs ih =>
      rw [UMem.strEq, UMem.strEq, hsame]
      by_cases hc : (c != 0 && m (u64 (o.strtab + off + k)) == c) = true
      · -- the character is not the final zero
        have hnext : ∀ i < k + 1, m (u64 (o.strtab + off + i)) ≠ 0 := by
          intro i hi
          rcases Nat.lt_succ_iff_lt_or_eq.1 hi with hi | rfl
          · exact hk i hi
          · rw [Bool.and_eq_true, bne_iff_ne, beq_iff_eq] at hc
            rw [hc.2]
            exact hc.1
        rw [Nat.add_assoc _ k 1, ih (k + 1) hnext (h _ (Or.inr ⟨off, hoff, k + 1, hnext, rfl⟩))]
      · rw [Bool.not_eq_true] at hc
        rw [hc, Bool.false_and, Bool.false_and]

theorem TablesSame.sym {j : ℕ} (h : TablesSame m m' o) (hj : j < o.nsyms) : o.sym m' j = o.sym m j := by
  have hread : ∀ b n, b + n ≤ 24 → m'.read (o.symtab + 24 * j + b) n = m.read (o.symtab + 24 * j + b) n :=
    fun b n hb => UMem.read_congr fun i hi => h _ (Or.inl ⟨24 * j + b + i, by omega, by
      rw [Nat.add_assoc, Nat.add_assoc, ← Nat.add_assoc (24 * j)]⟩)
  have hname := hread 0 4 (by omega)
  rw [Nat.add_zero] at hname
  unfold LoadedObj.sym
  simp only [hname, hread 4 1 (by omega), hread 6 2 (by omega), hread 8 8 (by omega), hread 16 8 (by omega)]

/-- **`lookup_in` depends on the tables only.** -/
theorem TablesSame.lookupIn (h : TablesSame m m' o) (name : Bytes) : lookupIn m' o name = lookupIn m o name := by
  have hdef : ∀ j ∈ List.range o.nsyms, o.defines m' name j = o.defines m name j := by
    intro j hj
    unfold LoadedObj.defines
    rw [h.sym (List.mem_range.1 hj)]
    by_cases hname : (o.sym m j).stName < o.strsz
    · have := h.strEq hname name 0 fun i hi => absurd hi (Nat.not_lt_zero i)
      rw [Nat.add_zero] at this
      simp only [this]
    · simp only [hname, decide_false, Bool.and_false, Bool.false_and]
  unfold LighthOS.lookupIn
  split_ifs
  · rfl
  · rw [List.find?_congr hdef]
    cases hfound : (List.range o.nsyms).find? (o.defines m name) with
    | none => rfl
    | some j =>
        simp only
        rw [h.sym (List.mem_range.1 (List.mem_of_find?_eq_some hfound))]

/-! ### What stays -/

/-- More libraries, and the same tables of those that were there. -/
structure Extends (s s' : LdState) : Prop where
  main : s'.main = s.main
  libs : ∃ new, s'.libs = s.libs ++ new
  tables : ∀ o ∈ s.objs, TablesSame s.mem s'.mem o

theorem Extends.refl (s : LdState) : Extends s s := ⟨rfl, ⟨[], by simp⟩, fun o _ => .refl _ o⟩

theorem Extends.objs (h : Extends s s') : ∃ new, s'.objs = s.objs ++ new := by
  obtain ⟨new, hnew⟩ := h.libs
  exact ⟨new, by rw [LdState.objs, h.main, hnew]; rfl⟩

theorem Extends.trans (h : Extends s s') (h' : Extends s' s'') : Extends s s'' := by
  obtain ⟨new, hnew⟩ := h.libs
  obtain ⟨new', hnew'⟩ := h'.libs
  obtain ⟨more, hmore⟩ := h.objs
  refine ⟨h'.main.trans h.main, ⟨new ++ new', by rw [hnew', hnew, List.append_assoc]⟩, fun o ho => ?_⟩
  exact (h.tables o ho).trans (h'.tables o (hmore ▸ List.mem_append_left _ ho))

/-- **A name that has an address keeps it.** -/
theorem Extends.resolveSymbol (h : Extends s s') {name : Bytes} (hne : resolveSymbol s name ≠ 0) :
    resolveSymbol s' name = resolveSymbol s name := by
  obtain ⟨new, hnew⟩ := h.objs
  have htables := h.tables
  unfold LighthOS.resolveSymbol at hne ⊢
  rw [hnew]
  generalize s.objs = objs at hne htables ⊢
  induction objs with
  | nil => exact absurd rfl hne
  | cons o objs ih =>
      rw [List.cons_append, lookupFirst, lookupFirst, (htables o List.mem_cons_self).lookupIn]
      rw [lookupFirst] at hne
      split_ifs at hne ⊢ with hfound
      · rfl
      · exact ih hne fun o ho => htables o (List.mem_cons_of_mem _ ho)

/-- The slots that were set for a name have the address of the name. -/
def Coherent (s : LdState) : Prop :=
  ∀ addr name value, .slot addr name value ∈ s.log → value ≠ 0 ∧ resolveSymbol s name = value

/-- **What the linker does in any number of steps**: unless it overwrites a table, it keeps the addresses. -/
structure Advances (s s' : LdState) : Prop where
  log : ∃ events, s'.log = events ++ s.log
  keeps : s'.TablesKept → Extends s s' ∧ (Coherent s → Coherent s')

instance : Std.Refl Advances := ⟨fun s => ⟨⟨[], rfl⟩, fun _ => ⟨.refl s, id⟩⟩⟩

instance : IsTrans LdState Advances := by
  refine ⟨fun s s' s'' h h' => ?_⟩
  obtain ⟨ev, hev⟩ := h.log
  obtain ⟨ev', hev'⟩ := h'.log
  refine ⟨⟨ev' ++ ev, by rw [hev', hev, List.append_assoc]⟩, fun hkept => ?_⟩
  obtain ⟨hext', hcoh'⟩ := h'.keeps hkept
  obtain ⟨hext, hcoh⟩ := h.keeps fun e he => hkept e (hev' ▸ List.mem_append_right _ he)
  exact ⟨hext.trans hext', fun hs => hcoh' (hcoh hs)⟩

/-- Slots keep their addresses. -/
theorem Coherent.extends (hs : Coherent s) (h : Extends s s')
    (hlog : ∀ addr name value, .slot addr name value ∈ s'.log → .slot addr name value ∈ s.log) : Coherent s' := by
  intro addr name value hmem
  obtain ⟨hne, hres⟩ := hs addr name value (hlog addr name value hmem)
  exact ⟨hne, by rw [h.resolveSymbol (by rwa [hres]), hres]⟩

/-! ### The steps of the linker -/

open Prog

/-- A store to the memory. -/
theorem along_ldStore (addr n : ℕ) (src : ℕ → UInt8) : Along Advances (ldStore addr n src) := by
  refine .modify fun s => ?_
  generalize s.mem.store addr n src = mem
  refine ⟨⟨[_], rfl⟩, fun hkept => ?_⟩
  have htables : ∀ o ∈ s.objs, TablesSame s.mem mem o := hkept (.store s.mem mem s.objs) List.mem_cons_self
  have hext : Extends s { s with mem, log := .store s.mem mem s.objs :: s.log } :=
    ⟨rfl, ⟨[], (List.append_nil _).symm⟩, htables⟩
  refine ⟨hext, fun hs => hs.extends hext fun a name value hmem => ?_⟩
  rcases List.mem_cons.1 hmem with heq | hmem
  · cases heq
  · exact hmem

/-- Changes that concern neither the memory nor the objects. -/
theorem along_modify {f : LdState → LdState} (hmem : ∀ s, (f s).mem = s.mem) (hmain : ∀ s, (f s).main = s.main)
    (hlibs : ∀ s, ∃ new, (f s).libs = s.libs ++ new) (hlog : ∀ s, (f s).log = s.log) :
    Along Advances (Prog.modify f : Ld Unit) := by
  refine .modify fun s => ⟨⟨[], hlog s⟩, fun _ => ?_⟩
  have hext : Extends s (f s) := ⟨hmain s, hlibs s, fun o _ => by rw [hmem s]; exact .refl _ o⟩
  exact ⟨hext, fun hs => hs.extends hext fun a name value h => by rwa [hlog s] at h⟩

/-- The loader keeps the addresses. -/
theorem loadSo_advances (env : LdEnv) (fuel : ℕ) (path : Bytes) : Along Advances (loadSo env fuel path) :=
  along_loadSo along_ldStore
    (fun _ => along_modify (fun _ => rfl) (fun _ => rfl) (fun _ => ⟨[], (List.append_nil _).symm⟩) fun _ => rfl) env fuel path

theorem along_addLib (o : LoadedObj) : Along Advances (addLib o) :=
  along_modify (fun _ => rfl) (fun _ => rfl) (fun _ => ⟨[o], rfl⟩) fun _ => rfl

theorem ldStore_ok (addr n : ℕ) (src : ℕ → UInt8) (s : LdState) :
    ∃ t, ldStore addr n src s = .ok () t ∧ Advances s t := ⟨_, rfl, along_ldStore addr n src s⟩

/-- **A slot is set**: to the address that the name has, which it keeps. -/
theorem along_setSlot (addr : ℕ) (name : Bytes) : Along Advances (setSlot addr name) := by
  intro s
  unfold setSlot
  simp only [bind_apply, get_apply, Result.andThen_ok]
  split_ifs with h₀
  · exact Std.Refl.refl s
  obtain ⟨t, ht, hstore⟩ := ldStore_ok addr 8 (leBytes (resolveSymbol s name)) s
  simp only [bind_apply, ht, Result.andThen_ok, modify_apply, Result.state]
  obtain ⟨ev, hev⟩ := hstore.log
  refine ⟨⟨_ :: ev, congrArg _ hev⟩, fun hkept => ?_⟩
  obtain ⟨hext, hcoh⟩ := hstore.keeps fun e he => hkept e (List.mem_cons_of_mem _ he)
  refine ⟨⟨hext.main, hext.libs, hext.tables⟩, fun hs addr' name' value hmem => ?_⟩
  rcases List.mem_cons.1 hmem with heq | hmem
  · cases heq
    exact ⟨h₀, hext.resolveSymbol h₀⟩
  · exact hcoh hs addr' name' value hmem

theorem along_cstr (fuel p : ℕ) : Along Advances (cstr fuel p) := by
  induction fuel generalizing p with
  | zero => exact .runsOn
  | succ fuel ih =>
      refine .bind .get fun s => ?_
      exact .ite (.pure _) (.bind (ih _) fun _ => .pure _)

/-- **A relocation**, of any type. -/
theorem along_applyRelaEntry (fuel : ℕ) (me : LoadedObj) (rela i : ℕ) :
    Along Advances (applyRelaEntry fuel me rela i) := by
  refine .bind .get fun s => ?_
  simp only
  split
  · exact along_ldStore _ _ _
  · exact .exit _
  · exact .bind (along_cstr _ _) fun _ => along_setSlot _ _
  · exact .exit _
  · exact .bind (along_cstr _ _) fun _ => along_setSlot _ _
  · exact .bind (along_cstr _ _) fun _ => .bind .get fun _ => along_ldStore _ _ _
  · exact .bind (along_cstr _ _) fun _ => .bind .get fun _ => along_ldStore _ _ _
  · exact .bind (along_cstr _ _) fun _ => .bind .get fun _ => along_ldStore _ _ _
  · exact .bind (along_cstr _ _) fun _ => .bind .get fun _ => .ite (.exit _) (along_ldStore _ _ _)
  · exact .pure _

theorem along_relocate (fuel : ℕ) (o : LoadedObj) : Along Advances (relocate fuel o) := by
  have happly : ∀ rela bytes, Along Advances (applyRela fuel o rela bytes) := fun rela bytes =>
    .foldlM (fun i _ _ => along_applyRelaEntry fuel o rela i) ()
  unfold relocate
  simp only
  exact .ite (.bind (happly _ _) fun _ => .ite (happly _ _) (.pure _)) (.ite (happly _ _) (.pure _))

theorem along_loadNeededFrom (env : LdEnv) (fuel : ℕ) (obj : LoadedObj) (d : ℕ) :
    Along Advances (loadNeededFrom env fuel obj d) := by
  induction fuel generalizing obj d with
  | zero => exact .runsOn
  | succ fuel ih =>
      refine .bind .get fun s => .ite (.pure _) (.ite (ih _ _) (.bind (along_cstr _ _) fun name => ?_))
      refine .bind .get fun s => .ite (ih _ _) (.bind .get fun s => .ite (.exit _) ?_)
      refine .bind (loadSo_advances _ _ _) fun o => ?_
      cases o with
      | none => exact .exit _
      | some o =>
          simp only
          exact .bind (along_addLib o) fun _ => .ite (ih _ _) (.bind (ih _ _) fun _ => ih _ _)

theorem along_loadNeeded (env : LdEnv) (fuel : ℕ) (obj : LoadedObj) : Along Advances (loadNeeded env fuel obj) :=
  .ite (.pure _) (along_loadNeededFrom _ _ _ _)

theorem along_dlDlopen (env : LdEnv) (fuel : ℕ) (path : Option Bytes) : Along Advances (dlDlopen env fuel path) := by
  cases path with
  | none => exact .pure _
  | some path =>
      refine .bind .get fun s => ?_
      split
      · exact .pure _
      refine .ite (.pure _) (.bind (loadSo_advances _ _ _) fun o => ?_)
      cases o with
      | none => exact .pure _
      | some o =>
          refine .bind (along_addLib o) fun _ => .bind (along_loadNeeded _ _ _) fun _ => .bind .get fun s' => ?_
          exact .bind (.foldlM (fun o _ _ => along_relocate fuel o) ()) fun _ => .pure _

theorem along_ldMainFrom (env : LdEnv) (fuel entry : ℕ) : Along Advances (ldMainFrom env fuel entry) := by
  refine .bind .get fun s => .ite (.exit _) (.bind (along_loadNeeded _ _ _) fun _ => .bind .get fun s' => ?_)
  refine .bind (.foldlM (fun o _ _ => along_relocate fuel o) ()) fun _ => .bind (along_relocate _ _) fun _ => ?_
  exact .bind (.ite (.pure _) (.bind (along_ldStore _ _ _) fun _ => along_ldStore _ _ _)) fun _ => .pure _

/-! ### Runs -/

/-- A call of `dl_dlopen`, with what it finds and the rounds that its loops get. -/
structure DlCall where
  env : LdEnv
  fuel : ℕ
  path : Option Bytes

/-- Calls of `dl_dlopen`, which may fail. -/
def dlRun : List DlCall → Ld Unit
  | [] => pure ()
  | call :: calls => do
      let _ ← dlDlopen call.env call.fuel call.path
      dlRun calls

/-- `ld_main` and the calls of the program. -/
def ldRun (env : LdEnv) (fuel stack : ℕ) (mem : UMem) (calls : List DlCall) : Prog.Result LdState String Unit :=
  (ldMain env fuel stack mem).andThen fun _ => dlRun calls

theorem along_dlRun (calls : List DlCall) : Along Advances (dlRun calls) := by
  induction calls with
  | nil => exact .pure _
  | cons call calls ih => exact .bind (along_dlDlopen _ _ _) fun _ => ih

theorem dlRun_append (calls calls' : List DlCall) (s : LdState) :
    dlRun (calls ++ calls') s = (dlRun calls s).andThen fun _ => dlRun calls' := by
  induction calls generalizing s with
  | nil => rfl
  | cons call calls ih =>
      rw [List.cons_append, dlRun, dlRun, bind_apply, bind_apply]
      cases dlDlopen call.env call.fuel call.path s with
      | ok a t => exact ih t
      | exit e t => rfl
      | runsOn t => rfl

/-- The state only grows with more calls. -/
theorem ldRun_advances (env : LdEnv) (fuel stack : ℕ) (mem : UMem) (calls calls' : List DlCall) :
    Advances (ldRun env fuel stack mem calls).state (ldRun env fuel stack mem (calls ++ calls')).state := by
  unfold ldRun
  cases ldMain env fuel stack mem with
  | ok a t =>
      rw [Result.andThen_ok, Result.andThen_ok, dlRun_append]
      cases dlRun calls t with
      | ok a t' => exact along_dlRun calls' t'
      | exit e t' => exact Std.Refl.refl t'
      | runsOn t' => exact Std.Refl.refl t'
  | exit e t => exact Std.Refl.refl t
  | runsOn t => exact Std.Refl.refl t

/-- `ld_main` starts without slots. -/
theorem ldMain_advances (env : LdEnv) (fuel stack : ℕ) (mem : UMem) :
    ∃ s₀ : LdState, s₀.log = [] ∧ Advances s₀ (ldMain env fuel stack mem).state := by
  unfold ldMain
  generalize hs₀ : (⟨mem, newObj 0 0 [109, 97, 105, 110] 0, [], dynRegionStart, []⟩ : LdState) = s₀
  have hlog : s₀.log = [] := by rw [← hs₀]
  simp only
  split
  · rename_i phdr phnum entry _ _ _
    split_ifs
    · exact ⟨s₀, hlog, Std.Refl.refl s₀⟩
    · exact ⟨s₀, hlog, Std.Refl.refl s₀⟩
    -- `main_obj` is filled in before `g_main` is set
    have hparse := parseDynamic_state fuel (newObj 0 0 [109, 97, 105, 110] (mainDyn mem phdr (u32 phnum))) s₀
    rw [bind_apply]
    cases hr : parseDynamic fuel (newObj 0 0 [109, 97, 105, 110] (mainDyn mem phdr (u32 phnum))) s₀ with
    | ok main t =>
        rw [hr, Result.state] at hparse
        refine ⟨{ t with main }, hparse ▸ hlog, ?_⟩
        exact along_ldMainFrom env fuel entry _
    | exit e t =>
        rw [hr, Result.state] at hparse
        exact ⟨t, hparse ▸ hlog, Std.Refl.refl t⟩
    | runsOn t =>
        rw [hr, Result.state] at hparse
        exact ⟨t, hparse ▸ hlog, Std.Refl.refl t⟩
  · exact ⟨s₀, hlog, Std.Refl.refl s₀⟩

theorem ldRun_coherent (env : LdEnv) (fuel stack : ℕ) (mem : UMem) (calls : List DlCall)
    (hkept : (ldRun env fuel stack mem calls).state.TablesKept) :
    Coherent (ldRun env fuel stack mem calls).state := by
  obtain ⟨s₀, hlog, hmain⟩ := ldMain_advances env fuel stack mem
  have hstart : Advances s₀ (ldRun env fuel stack mem []).state := by
    unfold ldRun
    cases hr : ldMain env fuel stack mem with
    | ok a t => rwa [hr] at hmain
    | exit e t => rwa [hr] at hmain
    | runsOn t => rwa [hr] at hmain
  have hrun := ldRun_advances env fuel stack mem [] calls
  refine ((IsTrans.trans _ _ _ hstart hrun).keeps hkept).2 fun addr name value hmem => ?_
  rw [hlog] at hmem
  exact absurd hmem List.not_mem_nil

/-- A value of a name: the address in the main program if it defines the name, otherwise the
one in the earliest library that does. -/
def DefinedAs (s : LdState) (name : Bytes) (value : ℕ) : Prop :=
  if lookupIn s.mem s.main name ≠ 0 then value = lookupIn s.mem s.main name
  else ∃ i o, s.libs[i]? = some o ∧ value = lookupIn s.mem o name ∧ ∀ o' ∈ s.libs.take i, lookupIn s.mem o' name = 0

theorem lookupFirst_earliest {name : Bytes} {objs : List LoadedObj} (h : lookupFirst m name objs ≠ 0) :
    ∃ i o, objs[i]? = some o ∧ lookupFirst m name objs = lookupIn m o name ∧
      ∀ o' ∈ objs.take i, lookupIn m o' name = 0 := by
  induction objs with
  | nil => exact absurd rfl h
  | cons o objs ih =>
      rw [lookupFirst] at h ⊢
      split_ifs at h ⊢ with hfound
      · exact ⟨0, o, rfl, rfl, fun o' ho' => absurd ho' List.not_mem_nil⟩
      · obtain ⟨i, o', hi, hval, hbefore⟩ := ih h
        refine ⟨i + 1, o', hi, hval, fun o'' ho'' => ?_⟩
        rcases List.mem_cons.1 ho'' with rfl | ho''
        · exact not_not.1 hfound
        · exact hbefore o'' ho''

theorem definedAs_resolveSymbol {name : Bytes} (h : resolveSymbol s name ≠ 0) :
    DefinedAs s name (resolveSymbol s name) := by
  unfold resolveSymbol LdState.objs at h ⊢
  rw [lookupFirst] at h ⊢
  unfold DefinedAs
  split_ifs at h ⊢ with hmain
  · rfl
  · exact lookupFirst_earliest h

/-- A program that defines a function `f` at `0x1234` and has a slot for it at `0x800`: the
initial stack, the program header, the dynamic section, the symbol and string tables, a
relocation, and the hash table. -/
def slotMem : UMem := UMem.ofWords
  [(0x118, 3), (0x120, 0x200), (0x128, 5), (0x130, 1), (0x138, 9), (0x140, 0x1000), (0x200, 2), (0x210, 0x300),
    (0x300, 6), (0x308, 0x400), (0x310, 5), (0x318, 0x500), (0x320, 10), (0x328, 3), (0x330, 7), (0x338, 0x600),
    (0x340, 8), (0x348, 24), (0x350, 4), (0x358, 0x700), (0x418, 0x1000200000001), (0x420, 0x1234), (0x500, 0x6600),
    (0x600, 0x800), (0x608, 0x100000006), (0x700, 0x200000000)]

/-- No file can be opened. -/
def noFiles : LdEnv := ⟨fun _ => none, fun _ _ => false, fun _ => 0⟩

/-- A test that a store overwrites none of the tables of this program. -/
def keepsSlotTables : LdEvent → Bool
  | .store before after objs =>
      objs.all (fun o => o.symtab == 0x400 && o.nsyms == 2 && o.strtab == 0x500 && o.strsz == 3) && before 0x502 == 0 &&
        (List.range 0x103).all fun k => after (0x400 + k) == before (0x400 + k)
  | .slot _ _ _ => true

theorem keepsTables_of_test {e : LdEvent} (h : keepsSlotTables e = true) : e.KeepsTables := by
  cases e with
  | slot addr name value => trivial
  | store before after objs =>
      rw [keepsSlotTables, Bool.and_eq_true, Bool.and_eq_true, List.all_eq_true, List.all_eq_true, beq_iff_eq] at h
      obtain ⟨⟨hobjs, hend⟩, hsame⟩ := h
      replace hsame : ∀ a, 0x400 ≤ a → a < 0x503 → after a = before a := by
        intro a hle hlt
        have := hsame (a - 0x400) (List.mem_range.2 (by omega))
        rwa [Nat.add_sub_cancel' hle, beq_iff_eq] at this
      intro o ho a ha
      have hobj := hobjs o ho
      simp only [Bool.and_eq_true, beq_iff_eq] at hobj
      obtain ⟨⟨⟨hsymtab, hnsyms⟩, hstrtab⟩, hstrsz⟩ := hobj
      rcases ha with ⟨k, hk, rfl⟩ | ⟨off, hoff, k, hk, rfl⟩
      · rw [hsymtab, u64, Nat.mod_eq_of_lt (by omega)]
        exact hsame _ (by omega) (by omega)
      · -- the last string ends at `0x502`
        have hlast : off + k ≤ 2 := by
          by_contra hlong
          refine hk (2 - off) (by omega) ?_
          rw [hstrtab, Nat.add_assoc, Nat.add_sub_cancel' (by omega)]
          exact hend
        rw [hstrtab, u64, Nat.mod_eq_of_lt (by omega)]
        exact hsame _ (by omega) (by omega)

end LighthOS
