/-
# Paths under a chroot

`canon_into` and `process_resolve_path` of `src/kernel/process.c`, and `SYS_CHDIR` and
`SYS_CHROOT` of `src/kernel/syscall.c`.  A path is canonicalised against the working
directory, `..` stopping at the top (`canonInto_spec`: the segments of the path, pushed
and popped as components), and the root of the process is put in front of it.

The result is cut off at 255 bytes without an error.  A working directory that
`SYS_CHDIR` takes from such a result need not be canonical (`chdir_cut_off`); where
every `SYS_CHDIR` fits, a process never leaves its root (`chroot_confined`).
-/

import LighthOS.Lib.System
import Mathlib.Tactic
import Mathlib.Data.List.DropRight

namespace LighthOS

/-- A C string, without its terminator. -/
abbrev CString := List Char

/-- `VFS_MAX_PATH`. -/
def vfsMaxPath : ℕ := 256

/-! ### The functions -/

/-- The first part of `canon_into`: the path behind the working directory, in a buffer
of `VFS_MAX_PATH` bytes. -/
def canonTmp (path cwd : CString) : Option CString :=
  let start : CString × CString :=
    match path with
    | '/' :: rest => (['/'], rest)
    | _ =>
        let tmp := cwd.take (vfsMaxPath - 1)
        let tmp := if tmp = [] then ['/'] else tmp
        (if tmp.getLast? ≠ some '/' ∧ tmp.length < vfsMaxPath - 1 then tmp ++ ['/'] else tmp, path)
  if start.1.length + start.2.length ≤ vfsMaxPath - 1 then some (start.1 ++ start.2) else none

/-- A `..` of `canon_into`: walk back one segment. -/
def dropSegment (out : CString) : CString :=
  if 1 < out.length then out.dropLast.rdropWhile (· != '/') else out

/-- One segment of `canon_into`. -/
def canonSegment (cap : ℕ) (out seg : CString) : Option CString :=
  if seg = [] ∨ seg = ['.'] then some out
  else if seg = ['.', '.'] then some (dropSegment out)
  else if cap ≤ out.length + seg.length + 1 then none
  else some (out ++ seg ++ ['/'])

/-- The end of `canon_into`: no slash at the end, except for the root. -/
def stripSlash (out : CString) : CString :=
  if 1 < out.length ∧ out.getLast? = some '/' then out.dropLast else out

/-- `canon_into`. -/
def canonInto (path cwd : CString) (cap : ℕ) : Option CString :=
  (canonTmp path cwd).bind fun tmp =>
    ((tmp.splitOn '/').foldlM (canonSegment cap) ['/']).map stripSlash

/-- The root and the working directory of a process. -/
structure ProcPath where
  root : CString
  cwd : CString
  deriving DecidableEq

/-- A string, or `"/"` where it is empty. -/
def orSlash (l : CString) : CString := if l = [] then ['/'] else l

/-- `process_resolve_path`. -/
def processResolvePath (p : ProcPath) (path : CString) (cap : ℕ) : Option CString :=
  (canonInto path (orSlash p.cwd) vfsMaxPath).map fun loc =>
    let root := orSlash p.root
    if root = ['/'] then loc.take (cap - 1)
    else
      let out := root.take (cap - 1)
      let out := if out.getLast? = some '/' then out.dropLast else out
      out ++ loc.take (cap - 1 - out.length)

/-- `SYS_CHDIR`, with the directories that `vfs_stat` finds; none for `-1`. -/
def sysChdir (p : ProcPath) (path : CString) (isDir : CString → Bool) : Option ProcPath :=
  (processResolvePath p path vfsMaxPath).bind fun resolved =>
    if isDir resolved then
      let root := orSlash p.root
      if root = ['/'] then some { p with cwd := (orSlash resolved).take (vfsMaxPath - 1) }
      else if root <+: resolved then
        some { p with cwd := (orSlash (resolved.drop root.length)).take (vfsMaxPath - 1) }
      else none
    else none

/-- The loop of `SYS_CHROOT` that drops slashes at the end, but not the first byte. -/
def stripSlashes : CString → CString
  | [] => []
  | c :: l => c :: l.rdropWhile (· == '/')

/-- `SYS_CHROOT`, with the directories that `vfs_stat` finds; none for `-1`. -/
def sysChroot (p : ProcPath) (path : CString) (isDir : CString → Bool) : Option ProcPath :=
  (processResolvePath p path vfsMaxPath).bind fun target =>
    if isDir target then some ⟨stripSlashes (target.take (vfsMaxPath - 1)), ['/']⟩ else none

/-! ### Components -/

/-- The components of a path. -/
def components (l : CString) : List CString := (l.splitOn '/').filter fun c => c ≠ []

/-- A component of a canonical path. -/
def Component (c : CString) : Prop := c ≠ [] ∧ c ≠ ['.'] ∧ c ≠ ['.', '.'] ∧ '/' ∉ c

/-- The path with these components. -/
def joinPath (comps : List CString) : CString :=
  if comps = [] then ['/'] else comps.flatMap fun c => '/' :: c

/-- A canonical absolute path. -/
def Canonical (l : CString) : Prop := ∃ comps : List CString, (∀ c ∈ comps, Component c) ∧ l = joinPath comps

/-- What stands before a path under `root`. -/
def rootPrefix (root : CString) : CString := if root = ['/'] then [] else root

/-- The path `out` is `root`, or a canonical path under it. -/
def Under (root out : CString) : Prop :=
  out = root ∨ ∃ comps : List CString, (∀ c ∈ comps, Component c) ∧ out = rootPrefix root ++ joinPath comps

/-- What a segment of a path means: a component, nothing, or one component less, never
above the top. -/
def pushSegment (comps : List CString) (seg : CString) : List CString :=
  if seg = [] ∨ seg = ['.'] then comps
  else if seg = ['.', '.'] then comps.dropLast
  else comps ++ [seg]

theorem component_of_push {comps : List CString} {seg : CString} (h : ∀ c ∈ comps, Component c)
    (hseg : '/' ∉ seg) : ∀ c ∈ pushSegment comps seg, Component c := by
  unfold pushSegment
  split_ifs with h₁ h₂
  · exact h
  · exact fun c hc => h c (List.mem_of_mem_dropLast hc)
  · intro c hc
    rw [not_or] at h₁
    rcases List.mem_append.1 hc with hc | hc
    · exact h c hc
    · rw [List.mem_singleton.1 hc]
      exact ⟨h₁.1, h₁.2, h₂, hseg⟩

/-- The buffer of `canon_into` while it holds these components. -/
def dirForm (comps : List CString) : CString := comps.flatMap (fun c => '/' :: c) ++ ['/']

theorem dirForm_concat (comps : List CString) (c : CString) :
    dirForm (comps ++ [c]) = dirForm comps ++ c ++ ['/'] := by
  simp [dirForm]

theorem dropSegment_dirForm {comps : List CString} (h : ∀ c ∈ comps, Component c) :
    dropSegment (dirForm comps) = dirForm comps.dropLast := by
  rcases List.eq_nil_or_concat comps with rfl | ⟨cs, c, rfl⟩
  · rfl
  have hc : ∀ x ∈ c.reverse, (x != '/') = true := by
    intro x hx
    have hmem := (h c (by simp)).2.2.2
    rw [bne_iff_ne]
    rintro rfl
    exact hmem (List.mem_reverse.1 hx)
  rw [List.concat_eq_append, dirForm_concat, dropSegment, if_pos (by simp [dirForm]; omega), List.dropLast_concat,
    List.dropLast_concat, List.rdropWhile, List.reverse_append, List.dropWhile_append_of_pos hc, dirForm,
    List.reverse_append]
  simp

theorem canonSegment_dirForm {cap : ℕ} {comps : List CString} {seg out : CString}
    (h : ∀ c ∈ comps, Component c) (hs : canonSegment cap (dirForm comps) seg = some out) :
    out = dirForm (pushSegment comps seg) ∧ (out.length ≤ (dirForm comps).length ∨ out.length < cap) := by
  unfold canonSegment at hs
  unfold pushSegment
  split_ifs at hs ⊢ with h₁ h₂ h₃
  · cases hs
    exact ⟨rfl, Or.inl le_rfl⟩
  · cases hs
    refine ⟨dropSegment_dirForm h, Or.inl ?_⟩
    unfold dropSegment
    split_ifs
    · exact (List.rdropWhile_prefix _ _).length_le.trans (by simp)
    · exact le_rfl
  · cases hs
    refine ⟨(dirForm_concat comps seg).symm, Or.inr ?_⟩
    simp only [List.length_append, List.length_singleton]
    omega

/-- **The loop of `canon_into`** pushes and pops the segments as components. -/
theorem foldlM_canonSegment {cap : ℕ} {segs comps : List CString} {out : CString}
    (h : ∀ c ∈ comps, Component c) (hsegs : ∀ s ∈ segs, '/' ∉ s) (hlen : (dirForm comps).length < cap)
    (hs : segs.foldlM (canonSegment cap) (dirForm comps) = some out) :
    (∀ c ∈ segs.foldl pushSegment comps, Component c) ∧ out = dirForm (segs.foldl pushSegment comps) ∧
      out.length < cap := by
  induction segs generalizing comps with
  | nil =>
      cases hs
      exact ⟨h, rfl, hlen⟩
  | cons seg segs ih =>
      rw [List.foldlM_cons] at hs
      obtain ⟨out₁, hs₁, hs⟩ := Option.bind_eq_some_iff.1 hs
      obtain ⟨rfl, hlen₁⟩ := canonSegment_dirForm h hs₁
      exact ih (component_of_push h (hsegs seg List.mem_cons_self))
        (fun s hs => hsegs s (List.mem_cons_of_mem _ hs)) (by omega) hs

theorem stripSlash_dirForm (comps : List CString) : stripSlash (dirForm comps) = joinPath comps := by
  unfold stripSlash joinPath
  by_cases h : comps = []
  · rw [h]
    rfl
  · have hlen : 1 < (dirForm comps).length := by
      obtain ⟨c, cs, rfl⟩ := List.exists_cons_of_ne_nil h
      simp [dirForm]
    rw [if_neg h, if_pos ⟨hlen, by simp [dirForm]⟩, dirForm, List.dropLast_concat]

/-- No segment has a slash. -/
theorem slash_notMem_of_mem_splitOn {l seg : CString} (h : seg ∈ l.splitOn '/') : '/' ∉ seg := by
  rw [List.splitOn_eq_splitOnP] at h
  induction l generalizing seg with
  | nil =>
      rw [List.splitOnP_nil, List.mem_singleton] at h
      simp [h]
  | cons c l ih =>
      rw [List.splitOnP_cons_eq_if_modifyHead] at h
      split_ifs at h with hc
      · rcases List.mem_cons.1 h with rfl | h
        · simp
        · exact ih h
      · obtain ⟨seg₀, segs, hs⟩ := List.exists_cons_of_ne_nil (List.splitOnP_ne_nil (· == '/') l)
        rw [hs] at h ih
        rw [List.modifyHead_cons, List.mem_cons] at h
        rcases h with rfl | h
        · have hseg₀ := ih List.mem_cons_self
          rw [List.mem_cons, not_or]
          exact ⟨fun he => hc (by simp [← he]), hseg₀⟩
        · exact ih (List.mem_cons_of_mem _ h)

theorem length_joinPath_le (comps : List CString) : (joinPath comps).length ≤ (dirForm comps).length := by
  rw [← stripSlash_dirForm]
  unfold stripSlash
  split_ifs
  · simp
  · exact le_rfl

/-- **`canon_into` returns a canonical path.** -/
theorem canonInto_spec {path cwd l : CString} {cap : ℕ} (hcap : 1 < cap) (h : canonInto path cwd cap = some l) :
    ∃ tmp, canonTmp path cwd = some tmp ∧ l = joinPath ((tmp.splitOn '/').foldl pushSegment []) ∧
      (∀ c ∈ (tmp.splitOn '/').foldl pushSegment [], Component c) ∧
      (dirForm ((tmp.splitOn '/').foldl pushSegment [])).length < cap := by
  obtain ⟨tmp, htmp, h⟩ := Option.bind_eq_some_iff.1 h
  obtain ⟨out, hout, rfl⟩ := Option.map_eq_some_iff.1 h
  have hout : (tmp.splitOn '/').foldlM (canonSegment cap) (dirForm []) = some out := hout
  obtain ⟨hcomp, rfl, hlen⟩ := foldlM_canonSegment (by simp)
    (fun s hs => slash_notMem_of_mem_splitOn hs) hcap hout
  exact ⟨tmp, htmp, stripSlash_dirForm _, hcomp, hlen⟩

theorem joinPath_eq_cons (comps : List CString) : ∃ l, joinPath comps = '/' :: l := by
  unfold joinPath
  split_ifs with h
  · exact ⟨[], rfl⟩
  · obtain ⟨c, cs, rfl⟩ := List.exists_cons_of_ne_nil h
    exact ⟨_, rfl⟩

/-- A canonical path ends with no slash, except for the root. -/
theorem Canonical.getLast {l : CString} (h : Canonical l) : l = ['/'] ∨ l.getLast? ≠ some '/' := by
  obtain ⟨comps, hcomp, rfl⟩ := h
  rcases List.eq_nil_or_concat comps with rfl | ⟨cs, c, rfl⟩
  · exact Or.inl rfl
  right
  obtain ⟨hne, -, -, hslash⟩ := hcomp c (by simp)
  rw [joinPath, if_neg (by simp), List.concat_eq_append, List.flatMap_append, List.flatMap_singleton,
    List.getLast?_append_of_ne_nil _ (by simp), List.getLast?_cons, List.getLast?_eq_some_getLast hne,
    Option.getD_some]
  intro he
  exact hslash (Option.some.inj he ▸ List.getLast_mem hne)

/-- The components of two paths with a slash between them. -/
theorem components_append (a b : CString) : components (a ++ '/' :: b) = components a ++ components b := by
  rw [components, components, components, List.splitOn_eq_splitOnP, List.splitOn_eq_splitOnP,
    List.splitOn_eq_splitOnP, List.splitOnP_append_cons _ _ (by simp), List.filter_append]

theorem components_nil : components [] = [] := rfl

theorem components_cons (l : CString) : components ('/' :: l) = components l := by
  rw [← List.nil_append ('/' :: l), components_append, components_nil, List.nil_append]

/-- Slashes at the end are no components. -/
theorem components_rdropWhile (l : CString) : components (l.rdropWhile (· == '/')) = components l := by
  induction l using List.reverseRecOn with
  | nil => simp
  | append_singleton l c ih =>
      by_cases hc : c = '/'
      · rw [List.rdropWhile_concat_pos _ _ _ (by simp [hc]), ih, hc, components_append, components_nil,
          List.append_nil]
      · rw [List.rdropWhile_concat_neg _ _ _ (by simp [hc])]

/-- The components with a slash before each. -/
theorem joinPath_append {a : List CString} (ha : a ≠ []) (b : List CString) :
    joinPath (a ++ b) = joinPath a ++ b.flatMap fun c => '/' :: c := by
  rw [joinPath, joinPath, if_neg (by simp [ha]), if_neg ha, List.flatMap_append]

theorem components_joinPath {comps : List CString} (h : ∀ c ∈ comps, Component c) :
    components (joinPath comps) = comps := by
  have hflat : ∀ l : List CString, (∀ c ∈ l, Component c) →
      components (l.flatMap fun c => '/' :: c) = l := by
    intro l
    induction l with
    | nil => exact fun _ => rfl
    | cons c l ih =>
        intro hl
        obtain ⟨hne, -, -, hslash⟩ := hl c List.mem_cons_self
        have hc : components c = [c] := by
          rw [components, List.splitOn_eq_splitOnP, List.splitOnP_eq_singleton]
          · simp [hne]
          · intro x hx
            rw [beq_eq_false_iff_ne]
            rintro rfl
            exact hslash hx
        rw [List.flatMap_cons, List.cons_append, components_cons]
        cases l with
        | nil => rw [List.flatMap_nil, List.append_nil, hc]
        | cons d l =>
            rw [List.flatMap_cons, List.cons_append, components_append, hc, ← components_cons,
              ← List.cons_append, ← List.flatMap_cons (f := fun c : CString => '/' :: c),
              ih fun x hx => hl x (List.mem_cons_of_mem _ hx)]
            rfl
  unfold joinPath
  split_ifs with hnil
  · rw [hnil]
    rfl
  · exact hflat comps h

/-- A path is what its components make. -/
theorem Canonical.eq_joinPath {l : CString} (h : Canonical l) : l = joinPath (components l) := by
  obtain ⟨comps, hcomp, rfl⟩ := h
  rw [components_joinPath hcomp]

/-! ### A process under its root -/

/-- The root of a process: an absolute path that does not end with a slash, except for
`"/"`, and that its buffer holds. -/
structure RootOk (root : CString) : Prop where
  absolute : ∃ l, root = '/' :: l ∧ l.getLast? ≠ some '/'
  length : root.length < vfsMaxPath

/-- What a path is cut off to. -/
theorem processResolvePath_spec {p : ProcPath} {path out : CString} (hr : RootOk p.root)
    (h : processResolvePath p path vfsMaxPath = some out) :
    ∃ comps : List CString, (∀ c ∈ comps, Component c) ∧
      canonInto path (orSlash p.cwd) vfsMaxPath = some (joinPath comps) ∧
      (joinPath comps).length < vfsMaxPath ∧ out = (rootPrefix p.root ++ joinPath comps).take (vfsMaxPath - 1) := by
  obtain ⟨loc, hloc, rfl⟩ := Option.map_eq_some_iff.1 h
  obtain ⟨tmp, -, rfl, hcomp, hlen⟩ := canonInto_spec (by decide) hloc
  refine ⟨_, hcomp, hloc, (length_joinPath_le _).trans_lt hlen, ?_⟩
  obtain ⟨l, hl, hlast⟩ := hr.absolute
  have hroot : orSlash p.root = p.root := by rw [orSlash, if_neg (by simp [hl])]
  have htake : p.root.take (vfsMaxPath - 1) = p.root :=
    List.take_of_length_le (Nat.le_sub_one_of_lt hr.length)
  simp only [hroot, rootPrefix, htake]
  by_cases h₁ : p.root = ['/']
  · rw [if_pos h₁, if_pos h₁, List.nil_append]
  · have hend : p.root.getLast? ≠ some '/' := by
      rw [hl]
      cases l with
      | nil => exact absurd hl h₁
      | cons c l => rwa [List.getLast?_cons_cons]
    rw [if_neg h₁, if_neg h₁, if_neg hend, List.take_append, htake]

/-- The path that `process_resolve_path` builds is not cut off. -/
def Fits (p : ProcPath) (path : CString) : Prop :=
  ∀ loc, canonInto path (orSlash p.cwd) vfsMaxPath = some loc →
    (rootPrefix p.root ++ loc).length < vfsMaxPath

instance (p : ProcPath) (path : CString) : Decidable (Fits p path) :=
  match h : canonInto path (orSlash p.cwd) vfsMaxPath with
  | none => .isTrue fun loc hloc => by rw [h] at hloc; cases hloc
  | some loc =>
      if hlen : (rootPrefix p.root ++ loc).length < vfsMaxPath then
        .isTrue fun loc' hloc => by rw [h] at hloc; cases hloc; exact hlen
      else .isFalse fun hf => hlen (hf loc h)

/-- **Where it is not cut off, a resolved path is under the root.** -/
theorem processResolvePath_of_fits {p : ProcPath} {path out : CString} (hr : RootOk p.root)
    (h : processResolvePath p path vfsMaxPath = some out) (hfit : Fits p path) :
    ∃ comps : List CString, (∀ c ∈ comps, Component c) ∧ (joinPath comps).length < vfsMaxPath ∧
      out = rootPrefix p.root ++ joinPath comps := by
  obtain ⟨comps, hcomp, hloc, hlen, rfl⟩ := processResolvePath_spec hr h
  exact ⟨comps, hcomp, hlen, List.take_of_length_le (Nat.le_sub_one_of_lt (hfit _ hloc))⟩

/-- **`SYS_CHDIR`** of a path that is not cut off leaves a canonical working directory. -/
theorem sysChdir_canonical {p p' : ProcPath} {path : CString} {isDir : CString → Bool} (hr : RootOk p.root)
    (hfit : Fits p path) (h : sysChdir p path isDir = some p') : p'.root = p.root ∧ Canonical p'.cwd := by
  obtain ⟨resolved, hres, h⟩ := Option.bind_eq_some_iff.1 h
  obtain ⟨comps, hcomp, hlen, rfl⟩ := processResolvePath_of_fits hr hres hfit
  obtain ⟨l, hl⟩ := joinPath_eq_cons comps
  have hcwd : (orSlash (joinPath comps)).take (vfsMaxPath - 1) = joinPath comps := by
    rw [orSlash, if_neg (by simp [hl]), List.take_of_length_le (Nat.le_sub_one_of_lt hlen)]
  have hroot : orSlash p.root = p.root := by
    obtain ⟨l, hl, -⟩ := hr.absolute
    rw [orSlash, if_neg (by simp [hl])]
  simp only [hroot, rootPrefix] at h
  split_ifs at h with h₁ h₂ h₃
  · cases h
    exact ⟨rfl, comps, hcomp, hcwd⟩
  · cases h
    rw [List.drop_left]
    exact ⟨rfl, comps, hcomp, hcwd⟩

/-- What a path under the root is cut off to keeps the root's components in front. -/
theorem components_take {root : CString} (hr : RootOk root) (comps : List CString) :
    ∃ l, (rootPrefix root ++ joinPath comps).take (vfsMaxPath - 1) = '/' :: l ∧
      components root <+: components ((rootPrefix root ++ joinPath comps).take (vfsMaxPath - 1)) := by
  obtain ⟨l, hl⟩ := joinPath_eq_cons comps
  rw [rootPrefix, hl]
  split_ifs with h
  · exact ⟨l.take (vfsMaxPath - 2), rfl, by rw [h]; exact List.nil_prefix⟩
  · obtain ⟨l₀, hl₀, -⟩ := hr.absolute
    have htake : (root ++ '/' :: l).take (vfsMaxPath - 1) = root ++ ('/' :: l).take (vfsMaxPath - 1 - root.length) := by
      rw [List.take_append, List.take_of_length_le (Nat.le_sub_one_of_lt hr.length)]
    refine ⟨l₀ ++ ('/' :: l).take (vfsMaxPath - 1 - root.length), by rw [htake, hl₀, List.cons_append], ?_⟩
    rw [htake]
    cases vfsMaxPath - 1 - root.length with
    | zero => rw [List.take_zero, List.append_nil]
    | succ n =>
        rw [List.take_succ_cons, components_append]
        exact List.prefix_append _ _

/-- **`SYS_CHROOT`** sets a root below the root from before. -/
theorem sysChroot_spec {p p' : ProcPath} {path : CString} {isDir : CString → Bool} (hr : RootOk p.root)
    (h : sysChroot p path isDir = some p') :
    RootOk p'.root ∧ p'.cwd = ['/'] ∧ components p.root <+: components p'.root := by
  obtain ⟨target, hres, h⟩ := Option.bind_eq_some_iff.1 h
  split_ifs at h
  cases h
  obtain ⟨comps, -, -, -, htarget⟩ := processResolvePath_spec hr hres
  obtain ⟨l, hl, hcomp⟩ := components_take hr comps
  rw [← htarget] at hl hcomp
  have hlen : target.length ≤ vfsMaxPath - 1 := by rw [htarget]; exact List.length_take_le _ _
  rw [List.take_of_length_le hlen]
  rw [hl] at hcomp hlen ⊢
  refine ⟨⟨⟨_, rfl, fun hlast => ?_⟩, ?_⟩, rfl, ?_⟩
  · have hne : l.rdropWhile (· == '/') ≠ [] := by
      intro hnil
      rw [hnil] at hlast
      cases hlast
    rw [List.getLast?_eq_some_getLast hne, Option.some.injEq] at hlast
    exact List.rdropWhile_last_not _ _ hne (by rw [hlast]; rfl)
  · have hle := (List.rdropWhile_prefix (· == '/') l).length_le
    have hmax : vfsMaxPath = 256 := rfl
    rw [stripSlashes]
    simp only [List.length_cons, hmax] at hlen ⊢
    omega
  · rwa [stripSlashes, components_cons, components_rdropWhile, ← components_cons]

/-! ### Runs -/

/-- What processes do with their paths, and with the directories that `vfs_stat` finds at
that time. -/
inductive PathOp
  | chdir (i : ℕ) (path : CString) (isDir : CString → Bool)
  | chroot (i : ℕ) (path : CString) (isDir : CString → Bool)
  | fork (i : ℕ)

/-- One operation; a call that fails changes nothing. -/
def pathStep (st : List ProcPath) : PathOp → Option (List ProcPath)
  | .chdir i path isDir => st[i]?.map fun p => st.set i ((sysChdir p path isDir).getD p)
  | .chroot i path isDir => st[i]?.map fun p => st.set i ((sysChroot p path isDir).getD p)
  | .fork i => st[i]?.map fun p => st ++ [p]

/-- The calls of any number of processes, from one with root `"/"` and working
directory `"/"` on. -/
def pathSystem : System (List ProcPath) PathOp := System.ofFun (fun st => st = [⟨['/'], ['/']⟩]) pathStep

/-- A `SYS_CHDIR` gets a path that is not cut off. -/
def PathOp.Fits (st : List ProcPath) : PathOp → Prop
  | .chdir i path _ => ∀ p ∈ st[i]?, LighthOS.Fits p path
  | .chroot _ _ _ | .fork _ => True

/-- **A process is confined to its root.** -/
structure PathConfined (p : ProcPath) : Prop where
  resolved : ∀ path out, processResolvePath p path vfsMaxPath = some out → Fits p path → Under p.root out
  chroot : ∀ path isDir p', sysChroot p path isDir = some p' → components p.root <+: components p'.root
  cwd : Canonical p.cwd

/-- **Chroot confinement.**  In every run whose `SYS_CHDIR` calls get paths that are not cut
off at 255 bytes, every process is confined to its root. -/
theorem chroot_confined {st : List ProcPath}
    (h : (pathSystem.restrict fun st op => op.Fits st).Reaches st) : ∀ p ∈ st, PathConfined p := by
  have hinv : ∀ p ∈ st, RootOk p.root ∧ Canonical p.cwd := by
    refine h.invariant (I := fun st : List ProcPath => ∀ p ∈ st, RootOk p.root ∧ Canonical p.cwd)
      (fun st h₀ p hp => ?_) fun st op st' hI hs => ?_
    · rw [h₀, List.mem_singleton] at hp
      rw [hp]
      exact ⟨⟨⟨[], rfl, by simp⟩, by decide⟩, [], by simp, rfl⟩
    · obtain ⟨hok, hs⟩ := hs
      have hset : ∀ {i : ℕ} {p' : ProcPath}, RootOk p'.root ∧ Canonical p'.cwd →
          ∀ q ∈ st.set i p', RootOk q.root ∧ Canonical q.cwd := by
        intro i p' hp' q hq
        rcases List.mem_or_eq_of_mem_set hq with hq | rfl
        · exact hI q hq
        · exact hp'
      cases op with
      | chdir i path isDir =>
          obtain ⟨p, hp, rfl⟩ := Option.map_eq_some_iff.1 hs
          have hp' := hI p (List.mem_of_getElem? hp)
          refine hset ?_
          cases hc : sysChdir p path isDir with
          | none => exact hp'
          | some p' =>
              obtain ⟨hroot, hcwd⟩ := sysChdir_canonical hp'.1 (hok p hp) hc
              exact ⟨hroot ▸ hp'.1, hcwd⟩
      | chroot i path isDir =>
          obtain ⟨p, hp, rfl⟩ := Option.map_eq_some_iff.1 hs
          have hp' := hI p (List.mem_of_getElem? hp)
          refine hset ?_
          cases hc : sysChroot p path isDir with
          | none => exact hp'
          | some p' =>
              obtain ⟨hroot, hcwd, -⟩ := sysChroot_spec hp'.1 hc
              exact ⟨hroot, [], by simp, hcwd⟩
      | fork i =>
          obtain ⟨p, hp, rfl⟩ := Option.map_eq_some_iff.1 hs
          intro q hq
          rcases List.mem_append.1 hq with hq | hq
          · exact hI q hq
          · rw [List.mem_singleton.1 hq]
            exact hI p (List.mem_of_getElem? hp)
  intro p hp
  obtain ⟨hroot, hcwd⟩ := hinv p hp
  refine ⟨fun path out hout hfit => ?_, fun path isDir p' hc => (sysChroot_spec hroot hc).2.2, hcwd⟩
  obtain ⟨comps, hcomp, -, hout⟩ := processResolvePath_of_fits hroot hout hfit
  exact Or.inr ⟨comps, hcomp, hout⟩

/-- The directories that a tree of directories has, as `vfs_resolve` finds them. -/
def findsDir (dirs : List (List CString)) (path : CString) : Bool := dirs.contains (components path)

/-- A component of 62 bytes. -/
def longName : CString := List.replicate 62 'a'

/-- A tree with a directory five levels down. -/
def deepTree : List (List CString) :=
  [[], [longName], [longName, longName], [longName, longName, longName],
    [longName, longName, longName, longName], [longName, longName, longName, longName, ['b']]]

/-- The hypothesis of `chroot_confined` is satisfiable: a process changes its root, forks, and
its child changes its directory. -/
theorem chroot_confined_fork : ∃ st, (pathSystem.restrict fun st op => op.Fits st).Reaches st ∧
    st = [⟨'/' :: longName, ['/']⟩, ⟨'/' :: longName, '/' :: longName⟩] ∧ ∀ p ∈ st, PathConfined p := by
  have hreach : (pathSystem.restrict fun st op => op.Fits st).Reaches
      [⟨'/' :: longName, ['/']⟩, ⟨'/' :: longName, '/' :: longName⟩] := by
    have h₀ : (pathSystem.restrict fun st op => op.Fits st).Reaches [⟨['/'], ['/']⟩] := .init rfl
    have h₁ : (pathSystem.restrict fun st op => op.Fits st).Reaches [⟨'/' :: longName, ['/']⟩] :=
      h₀.step (a := .chroot 0 longName (findsDir deepTree))
        ⟨trivial, show pathStep _ _ = _ by decide +kernel⟩
    have h₂ : (pathSystem.restrict fun st op => op.Fits st).Reaches
        [⟨'/' :: longName, ['/']⟩, ⟨'/' :: longName, ['/']⟩] := h₁.step (a := .fork 0) ⟨trivial, rfl⟩
    refine h₂.step (a := .chdir 1 ("../../".toList ++ longName) (findsDir deepTree))
      ⟨fun p hp => ?_, show pathStep _ _ = _ by decide +kernel⟩
    cases Option.mem_def.1 hp
    decide +kernel
  exact ⟨_, hreach, rfl, chroot_confined hreach⟩

/-- **A path that is cut off becomes the working directory.**  The root of a process has 252
bytes.  `SYS_CHDIR("b/c")`, where there is a directory `b` and no `c`, resolves to the
first 255 bytes of the path, which end with `b/`: the call succeeds and the working
directory is `"/b/"`. -/
theorem chdir_cut_off : ∃ st, pathSystem.Reaches st ∧
    (∃ p ∈ st, p.cwd = "/b/".toList) ∧ ¬∀ p ∈ st, PathConfined p := by
  have hrun : (System.exec pathStep [⟨['/'], ['/']⟩]
      [.chroot 0 (joinPath [longName, longName, longName, longName]) (findsDir deepTree),
        .chdir 0 "b/c".toList (findsDir deepTree)]).any (fun st => decide (∃ p ∈ st, p.cwd = "/b/".toList))
      = true := by decide +kernel
  obtain ⟨st, hexec, hcwd⟩ := (Option.any_eq_true _ _).1 hrun
  obtain ⟨p, hp, hcwd⟩ := of_decide_eq_true hcwd
  refine ⟨st, System.ofFun_reaches (.init rfl) hexec, ⟨p, hp, hcwd⟩, fun hall => ?_⟩
  have hlast := (hall p hp).cwd.getLast
  rw [hcwd] at hlast
  revert hlast
  decide

end LighthOS
