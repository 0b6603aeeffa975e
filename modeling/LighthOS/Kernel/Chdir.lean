/-
# Changing directories

`SYS_CHDIR` and `process_resolve_path`, one after the other.  The working directory that
`SYS_CHDIR` stores is the canonical path with the root put in front and stripped again,
and it has the components of the path for every root (`sysChdir_resolved`).  `canon_into`
pushes and pops the segments of a string one by one, with room for 253 bytes in any case
(`foldlM_canonSegment_splitOn`), and a path behind a slash goes on where the path before it ended
(`resolved_append`): to resolve `q` in the new directory is to resolve `p/q` in the old one
(`chdir_composes`).
-/

import LighthOS.Kernel.Path

namespace LighthOS

/-! ### What a string resolves to -/

/-- The components that the segments of a string leave behind. -/
def resolved (l : CString) : List CString := (l.splitOn '/').foldl pushSegment []

theorem splitOn_slash_append (a b : CString) :
    (a ++ '/' :: b).splitOn '/' = a.splitOn '/' ++ b.splitOn '/' := by
  rw [List.splitOn_eq_splitOnP, List.splitOn_eq_splitOnP, List.splitOn_eq_splitOnP,
    List.splitOnP_append_cons _ _ (by simp)]

/-- **A path behind a slash** goes on where the path before it ended. -/
theorem resolved_append (a b : CString) :
    resolved (a ++ '/' :: b) = (b.splitOn '/').foldl pushSegment (resolved a) := by
  rw [resolved, splitOn_slash_append, List.foldl_append, resolved]

/-- Empty segments do not matter. -/
theorem foldl_push_filter (segs acc : List CString) :
    (segs.filter fun c => c ≠ []).foldl pushSegment acc = segs.foldl pushSegment acc := by
  induction segs generalizing acc with
  | nil => rfl
  | cons seg segs ih =>
      by_cases h : seg = []
      · rw [List.filter_cons_of_neg (by simpa using h), ih, List.foldl_cons]
        simp [pushSegment, h]
      · rw [List.filter_cons_of_pos (by simpa using h), List.foldl_cons, List.foldl_cons, ih]

/-- Components are pushed as they are. -/
theorem foldl_push_components {comps : List CString} (h : ∀ c ∈ comps, Component c) (acc : List CString) :
    comps.foldl pushSegment acc = acc ++ comps := by
  induction comps generalizing acc with
  | nil => rw [List.foldl_nil, List.append_nil]
  | cons c comps ih =>
      obtain ⟨hne, hdot, hdots, -⟩ := h c List.mem_cons_self
      rw [List.foldl_cons, ih fun d hd => h d (List.mem_cons_of_mem _ hd), pushSegment,
        if_neg (by simp [hne, hdot]), if_neg hdots, List.append_assoc, List.singleton_append]

/-- A string whose components are canonical resolves to them. -/
theorem resolved_eq_components {l : CString} (h : ∀ c ∈ components l, Component c) :
    resolved l = components l := by
  rw [resolved, ← foldl_push_filter]
  exact foldl_push_components h []

theorem component_resolved (l : CString) : ∀ c ∈ resolved l, Component c := by
  have hfold : ∀ (segs comps : List CString), (∀ s ∈ segs, '/' ∉ s) → (∀ c ∈ comps, Component c) →
      ∀ c ∈ segs.foldl pushSegment comps, Component c := by
    intro segs
    induction segs with
    | nil => exact fun _ _ h => h
    | cons seg segs ih =>
        intro comps hsegs hcomps
        exact ih _ (fun s hs => hsegs s (List.mem_cons_of_mem _ hs))
          (component_of_push hcomps (hsegs seg List.mem_cons_self))
  exact hfold _ [] (fun s hs => slash_notMem_of_mem_splitOn hs) (by simp)

/-! ### The buffers -/

/-- The string that `canon_into` starts from, in a buffer without an end. -/
def canonJoin (path cwd : CString) : CString :=
  if path.head? = some '/' then path
  else if cwd = [] then '/' :: path
  else if cwd.getLast? = some '/' then cwd ++ path
  else cwd ++ '/' :: path

theorem canonJoin_of_abs {path : CString} (cwd : CString) (h : path.head? = some '/') :
    canonJoin path cwd = path := if_pos h

/-- A relative path comes behind the working directory and a slash. -/
theorem canonJoin_of_rel {path : CString} (cwd : CString) (h : path.head? ≠ some '/') :
    ∃ dir : CString, canonJoin path cwd = dir ++ '/' :: path ∧ resolved dir = resolved cwd ∧
      dir.length ≤ cwd.length ∧ (cwd ≠ [] → dir = cwd ∨ cwd = dir ++ ['/']) := by
  unfold canonJoin
  rw [if_neg h]
  split_ifs with hnil hlast
  · exact ⟨[], rfl, by rw [hnil], Nat.zero_le _, fun hne => absurd hnil hne⟩
  · obtain ⟨dir, rfl⟩ : ∃ dir, cwd = dir ++ ['/'] := by
      rw [List.getLast?_eq_some_iff] at hlast
      exact hlast
    refine ⟨dir, by rw [List.append_assoc, List.singleton_append], ?_, by simp, fun _ => Or.inr rfl⟩
    rw [resolved_append dir []]
    simp [pushSegment]
  · exact ⟨cwd, rfl, rfl, le_rfl, fun _ => Or.inl rfl⟩

/-- A path that goes on goes on behind its directory. -/
theorem canonJoin_append {path : CString} (q cwd : CString) (hne : path ≠ []) :
    canonJoin (path ++ '/' :: q) cwd = canonJoin path cwd ++ '/' :: q := by
  have hhead : (path ++ '/' :: q).head? = path.head? := List.head?_append_of_ne_nil _ hne
  unfold canonJoin
  rw [hhead]
  split_ifs <;> simp

/-- What `canon_into` puts before a relative path. -/
def canonStart (cwd : CString) : CString :=
  let tmp := if cwd.take (vfsMaxPath - 1) = [] then ['/'] else cwd.take (vfsMaxPath - 1)
  if tmp.getLast? ≠ some '/' ∧ tmp.length < vfsMaxPath - 1 then tmp ++ ['/'] else tmp

theorem canonTmp_relative {path : CString} (h : path.head? ≠ some '/') (cwd : CString) : canonTmp path cwd =
    if (canonStart cwd).length + path.length ≤ vfsMaxPath - 1 then some (canonStart cwd ++ path) else none := by
  unfold canonTmp canonStart
  split
  · simp at h
  · rfl

theorem canonTmp_absolute (rest cwd : CString) : canonTmp ('/' :: rest) cwd =
    if rest.length + 1 ≤ vfsMaxPath - 1 then some ('/' :: rest) else none := by
  rw [Nat.add_comm]
  rfl

/-- Where it fits, `canon_into` starts from that string. -/
theorem canonTmp_eq {path cwd : CString} (h : (canonJoin path cwd).length < vfsMaxPath) :
    canonTmp path cwd = some (canonJoin path cwd) := by
  have hmax : vfsMaxPath = 256 := rfl
  by_cases hhead : path.head? = some '/'
  · obtain ⟨rest, rfl⟩ := List.head?_eq_some_iff.1 hhead
    rw [canonJoin_of_abs cwd rfl] at h ⊢
    rw [List.length_cons] at h
    rw [canonTmp_absolute, if_pos (by omega)]
  · obtain ⟨dir, hjoin, -, -, hdir⟩ := canonJoin_of_rel cwd hhead
    rw [hjoin] at h ⊢
    simp only [List.length_append, List.length_cons] at h
    -- the buffer before the path is copied to it
    have hstart : canonStart cwd = dir ++ ['/'] := by
      unfold canonStart
      by_cases hnil : cwd = []
      · subst hnil
        rw [canonJoin, if_neg hhead, if_pos rfl] at hjoin
        have hlen := congrArg List.length hjoin
        simp only [List.length_append, List.length_cons] at hlen
        rw [List.length_eq_zero_iff.1 (by omega : dir.length = 0)]
        simp
      have htake : cwd.take (vfsMaxPath - 1) = cwd := by
        refine List.take_of_length_le ?_
        rcases hdir hnil with rfl | hc
        · omega
        · rw [hc, List.length_append, List.length_singleton]
          omega
      simp only [htake, if_neg hnil]
      rcases hdir hnil with rfl | hc
      · have hlast : dir.getLast? ≠ some '/' := by
          intro hlast
          rw [canonJoin, if_neg hhead, if_neg hnil, if_pos hlast] at hjoin
          have hlen := congrArg List.length hjoin
          simp only [List.length_append, List.length_cons] at hlen
          omega
        rw [if_pos ⟨hlast, by omega⟩]
      · rw [if_neg (by simp [hc]), hc]
    rw [canonTmp_relative hhead, hstart, if_pos]
    · simp
    · simp only [List.length_append, List.length_singleton]
      omega

/-- The bytes that components take, with a slash each. -/
def compBytes (comps : List CString) : ℕ := (comps.map fun c => c.length + 1).sum

theorem compBytes_cons (c : CString) (comps : List CString) :
    compBytes (c :: comps) = c.length + 1 + compBytes comps := by simp [compBytes]

theorem length_dirForm (comps : List CString) : (dirForm comps).length = compBytes comps + 1 := by
  rw [dirForm, List.length_append, List.length_flatMap]
  simp [compBytes]

theorem dirForm_length (comps : List CString) (seg : CString) :
    (dirForm (pushSegment comps seg)).length ≤ (dirForm comps).length + (seg.length + 1) := by
  unfold pushSegment
  split_ifs
  · omega
  · rcases List.eq_nil_or_concat comps with rfl | ⟨cs, c, rfl⟩
    · simp [dirForm]
    · rw [List.concat_eq_append, List.dropLast_concat, dirForm_concat]
      simp only [List.length_append, List.length_singleton]
      omega
  · rw [dirForm_concat]
    simp only [List.length_append, List.length_singleton]
    omega

/-- **The loop of `canon_into`** has room for every segment where the segments that are not
empty fit one after another. -/
theorem foldlM_canonSegment_eq (cap : ℕ) (segs comps : List CString)
    (h : ∀ c ∈ comps, Component c) (hsegs : ∀ s ∈ segs, '/' ∉ s)
    (hlen : (dirForm comps).length + compBytes (segs.filter fun c => c ≠ []) < cap) :
    segs.foldlM (canonSegment cap) (dirForm comps) = some (dirForm (segs.foldl pushSegment comps)) ∧
      (dirForm (segs.foldl pushSegment comps)).length
        ≤ (dirForm comps).length + compBytes (segs.filter fun c => c ≠ []) := by
  induction segs generalizing comps with
  | nil => exact ⟨rfl, Nat.le_add_right _ _⟩
  | cons seg segs ih =>
      have hsegs' : ∀ s ∈ segs, '/' ∉ s := fun s hs => hsegs s (List.mem_cons_of_mem _ hs)
      by_cases h₀ : seg = []
      · subst h₀
        exact ih comps h hsegs' hlen
      rw [List.filter_cons_of_pos (by simpa using h₀), compBytes_cons] at hlen ⊢
      have hstep : canonSegment cap (dirForm comps) seg = some (dirForm (pushSegment comps seg)) := by
        unfold canonSegment pushSegment
        split_ifs with h₁ h₂ h₃
        · rfl
        · rw [dropSegment_dirForm h]
        · omega
        · rw [dirForm_concat]
      have hlen₁ := dirForm_length comps seg
      obtain ⟨hrun, hle⟩ := ih _ (component_of_push h (hsegs seg List.mem_cons_self)) hsegs' (by omega)
      rw [List.foldlM_cons, hstep, List.foldl_cons]
      exact ⟨hrun, by omega⟩

/-- The segments of a string and the slashes between them. -/
theorem compBytes_splitOn (l : CString) : compBytes (l.splitOn '/') = l.length + 1 := by
  rw [List.splitOn_eq_splitOnP]
  induction l with
  | nil => rfl
  | cons c l ih =>
      rw [List.splitOnP_cons_eq_if_modifyHead]
      split_ifs with hc
      · rw [compBytes_cons, ih, List.length_nil, List.length_cons]
        omega
      · obtain ⟨seg, segs, hs⟩ := List.exists_cons_of_ne_nil (List.splitOnP_ne_nil (· == '/') l)
        rw [hs] at ih ⊢
        rw [compBytes_cons] at ih
        rw [List.modifyHead_cons, compBytes_cons, List.length_cons, List.length_cons]
        omega

theorem compBytes_components_le (l : CString) : compBytes (components l) ≤ l.length + 1 := by
  rw [← compBytes_splitOn]
  exact (List.filter_sublist.map fun c : CString => c.length + 1).sum_le_sum fun _ _ => Nat.zero_le _

/-- **`canon_into`** of a string of at most 253 bytes. -/
theorem foldlM_canonSegment_splitOn {l : CString} (h : l.length ≤ 253) :
    (l.splitOn '/').foldlM (canonSegment vfsMaxPath) (dirForm []) = some (dirForm (resolved l)) ∧
      (dirForm (resolved l)).length ≤ l.length + 2 := by
  have hmax : vfsMaxPath = 256 := rfl
  have hone : (dirForm []).length = 1 := rfl
  have hbytes : compBytes ((l.splitOn '/').filter fun c => c ≠ []) ≤ l.length + 1 := compBytes_components_le l
  obtain ⟨hrun, hle⟩ := foldlM_canonSegment_eq vfsMaxPath (l.splitOn '/') [] (by simp)
    (fun s hs => slash_notMem_of_mem_splitOn hs) (by omega)
  exact ⟨hrun, by rw [resolved]; omega⟩

theorem canonInto_of_run (path cwd : CString) (comps : List CString)
    (h : (canonJoin path cwd).length < vfsMaxPath)
    (hrun : ((canonJoin path cwd).splitOn '/').foldlM (canonSegment vfsMaxPath) (dirForm [])
      = some (dirForm comps)) : canonInto path cwd vfsMaxPath = some (joinPath comps) := by
  have hrun : ((canonJoin path cwd).splitOn '/').foldlM (canonSegment vfsMaxPath) ['/']
      = some (dirForm comps) := hrun
  rw [canonInto, canonTmp_eq h, Option.bind_some, hrun, Option.map_some, stripSlash_dirForm]

theorem joinPath_length (comps : List CString) : (joinPath comps).length + 1 ≤ max 2 (dirForm comps).length := by
  unfold joinPath
  split_ifs with h
  · simp
  · simp [dirForm]

/-! ### The law -/

theorem resolved_cons_slash (l : CString) : resolved ('/' :: l) = resolved l := by
  have h := resolved_append [] l
  rw [List.nil_append] at h
  rw [h, resolved]
  rfl

theorem resolved_orSlash (l : CString) : resolved (orSlash l) = resolved l := by
  unfold orSlash
  split_ifs with h
  · rw [h, resolved_cons_slash]
  · rfl

/-- The root as `process_resolve_path` writes it. -/
def rootPart (root : CString) : CString :=
  if orSlash root = ['/'] then []
  else
    let out := (orSlash root).take (vfsMaxPath - 1)
    if out.getLast? = some '/' then out.dropLast else out

theorem processResolvePath_eq (p : ProcPath) (path : CString) :
    processResolvePath p path vfsMaxPath = (canonInto path (orSlash p.cwd) vfsMaxPath).map fun loc =>
      rootPart p.root ++ loc.take (vfsMaxPath - 1 - (rootPart p.root).length) := by
  unfold processResolvePath rootPart
  congr 1
  funext loc
  simp only
  split_ifs <;> simp

/-- **`SYS_CHDIR`** keeps the root, and its new working directory has the components of the
path, where the resolved path is not too long. -/
theorem sysChdir_resolved {p p' : ProcPath} {path loc : CString} {isDir : CString → Bool}
    (hloc : canonInto path (orSlash p.cwd) vfsMaxPath = some ('/' :: loc))
    (hres : ∀ out, processResolvePath p path vfsMaxPath = some out → out.length ≤ 253)
    (h : sysChdir p path isDir = some p') :
    p'.root = p.root ∧ resolved p'.cwd = resolved ('/' :: loc) ∧ p'.cwd.length ≤ loc.length + 1 ∧
      p'.cwd ≠ [] ∧ loc.length < 253 := by
  have hmax : vfsMaxPath = 256 := rfl
  rw [processResolvePath_eq, hloc, Option.map_some] at hres
  have hlen := hres _ rfl
  rw [List.length_append, List.length_take, List.length_cons] at hlen
  have htake : ('/' :: loc).take (vfsMaxPath - 1 - (rootPart p.root).length) = '/' :: loc :=
    List.take_of_length_le (by rw [List.length_cons]; omega)
  unfold sysChdir at h
  rw [processResolvePath_eq, hloc, Option.map_some, Option.bind_some, htake] at h
  have hcut : ∀ l : CString, l.length ≤ 253 → (orSlash l).take (vfsMaxPath - 1) = orSlash l := by
    intro l hl
    refine List.take_of_length_le ?_
    unfold orSlash
    split_ifs
    · simp [hmax]
    · omega
  simp only at h
  by_cases hd : isDir (rootPart p.root ++ '/' :: loc) = true
  swap
  · rw [if_neg hd] at h
    cases h
  rw [if_pos hd] at h
  by_cases hroot : orSlash p.root = ['/']
  · have hpart : rootPart p.root = [] := if_pos hroot
    rw [if_pos hroot, hpart, List.nil_append, hcut _ (by rw [List.length_cons]; omega)] at h
    cases h
    exact ⟨rfl, rfl, by simp [orSlash], by simp [orSlash], by omega⟩
  rw [if_neg hroot] at h
  by_cases hpre : orSlash p.root <+: rootPart p.root ++ '/' :: loc
  swap
  · rw [if_neg hpre] at h
    cases h
  rw [if_pos hpre] at h
  -- the root itself was not cut off
  have hfull : (orSlash p.root).take (vfsMaxPath - 1) = orSlash p.root := by
    refine List.take_of_length_le (hpre.length_le.trans ?_)
    rw [List.length_append, List.length_cons]
    omega
  have hpart : rootPart p.root = if (orSlash p.root).getLast? = some '/' then (orSlash p.root).dropLast
      else orSlash p.root := by
    rw [rootPart, if_neg hroot, hfull]
  by_cases hlast : (orSlash p.root).getLast? = some '/'
  · rw [if_pos hlast] at hpart
    obtain ⟨base, hbase⟩ := List.getLast?_eq_some_iff.1 hlast
    rw [hbase, List.dropLast_concat] at hpart
    have hdrop : (rootPart p.root ++ '/' :: loc).drop (orSlash p.root).length = loc := by
      rw [hpart, hbase, List.append_cons base '/' loc, List.drop_left]
    rw [hdrop, hcut _ (by omega)] at h
    cases h
    refine ⟨rfl, (resolved_orSlash loc).trans (resolved_cons_slash loc).symm, ?_, ?_, by omega⟩
    · unfold orSlash
      split_ifs
      · simp
      · exact Nat.le_succ _
    · unfold orSlash
      split_ifs with hnil
      · simp
      · exact hnil
  · rw [if_neg hlast] at hpart
    rw [hpart, List.drop_left, hcut _ (by rw [List.length_cons]; omega)] at h
    cases h
    exact ⟨rfl, rfl, by simp [orSlash], by simp [orSlash], by omega⟩

/-- **`SYS_CHDIR` composes.**  For every root and working directory, every path that is not
empty and that `SYS_CHDIR` accepts, and every relative path `q`, where the strings that are
built have at most 253 bytes: `q` resolves after the call to what `path/q` resolved to
before it. -/
theorem chdir_composes (p p' : ProcPath) (path q : CString) (isDir : CString → Bool) (hne : path ≠ [])
    (hrel : q.head? ≠ some '/') (hjoin : (canonJoin (path ++ '/' :: q) (orSlash p.cwd)).length ≤ 253)
    (hres : ∀ out, processResolvePath p path vfsMaxPath = some out → out.length ≤ 253)
    (hchdir : sysChdir p path isDir = some p') :
    processResolvePath p' q vfsMaxPath = processResolvePath p (path ++ '/' :: q) vfsMaxPath ∧
      (processResolvePath p' q vfsMaxPath).isSome = true := by
  have hmax : vfsMaxPath = 256 := rfl
  have happ := canonJoin_append q (orSlash p.cwd) hne
  rw [happ] at hjoin
  have hlen : (canonJoin path (orSlash p.cwd)).length + (q.length + 1) ≤ 253 := by
    rwa [List.length_append, List.length_cons] at hjoin
  obtain ⟨hrun, hform⟩ := foldlM_canonSegment_splitOn (l := canonJoin path (orSlash p.cwd)) (by omega)
  have hloc := canonInto_of_run _ _ _ (by omega) hrun
  obtain ⟨loc, hcons⟩ := joinPath_eq_cons (resolved (canonJoin path (orSlash p.cwd)))
  rw [hcons] at hloc
  obtain ⟨hroot, hcwd, hcwdlen, hcwdne, hloclen⟩ := sysChdir_resolved hloc hres hchdir
  -- `path/q` before the call
  obtain ⟨hrun₂, -⟩ := foldlM_canonSegment_splitOn hjoin
  rw [resolved_append] at hrun₂
  have hbefore := canonInto_of_run (path ++ '/' :: q) (orSlash p.cwd) _
    (by rw [happ]; omega) (by rw [happ]; exact hrun₂)
  rw [splitOn_slash_append, List.foldlM_append, hrun] at hrun₂
  -- `q` after it
  have hcomps : resolved (orSlash p'.cwd) = resolved (canonJoin path (orSlash p.cwd)) := by
    rw [resolved_orSlash, hcwd, ← hcons,
      resolved_eq_components (by rw [components_joinPath (component_resolved _)]; exact component_resolved _),
      components_joinPath (component_resolved _)]
  obtain ⟨dir, hdir, hdirres, hdirlen, -⟩ := canonJoin_of_rel (orSlash p'.cwd) hrel
  have hshort : (orSlash p'.cwd).length ≤ loc.length + 1 := by
    rw [orSlash, if_neg hcwdne]
    exact hcwdlen
  have hjl := joinPath_length (resolved (canonJoin path (orSlash p.cwd)))
  rw [hcons, List.length_cons] at hjl
  obtain ⟨hrun₁, -⟩ := foldlM_canonSegment_splitOn (l := dir) (by omega)
  rw [hdirres, hcomps] at hrun₁
  have hafter := canonInto_of_run q (orSlash p'.cwd)
    ((q.splitOn '/').foldl pushSegment (resolved (canonJoin path (orSlash p.cwd))))
    (by rw [hdir, List.length_append, List.length_cons]; omega)
    (by rw [hdir, splitOn_slash_append, List.foldlM_append, hrun₁]; exact hrun₂)
  rw [processResolvePath_eq, processResolvePath_eq, hroot, hafter, hbefore]
  exact ⟨rfl, rfl⟩

/-- The hypotheses of `chdir_composes` are satisfiable: under the root `"/j"`, `SYS_CHDIR("../b")`
from `"/a"`, and then `"../c"`. -/
theorem chdir_composes_chroot :
    sysChdir ⟨"/j".toList, "/a".toList⟩ "../b".toList (fun _ => true) = some ⟨"/j".toList, "/b".toList⟩ ∧
    processResolvePath ⟨"/j".toList, "/b".toList⟩ "../c".toList vfsMaxPath
      = processResolvePath ⟨"/j".toList, "/a".toList⟩ ("../b".toList ++ '/' :: "../c".toList) vfsMaxPath := by
  have hchdir : sysChdir ⟨"/j".toList, "/a".toList⟩ "../b".toList (fun _ => true)
      = some ⟨"/j".toList, "/b".toList⟩ := by decide +kernel
  have hout : processResolvePath ⟨"/j".toList, "/a".toList⟩ "../b".toList vfsMaxPath
      = some "/j/b".toList := by decide +kernel
  refine ⟨hchdir, (chdir_composes _ _ _ _ _ (by decide) (by decide) (by decide +kernel) (fun out h => ?_)
    hchdir).1⟩
  rw [← Option.some.inj (hout.symm.trans h)]
  decide

end LighthOS
