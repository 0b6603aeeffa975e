/-
# A path and its parent

`vfs_create`, `vfs_mkdir` and `vfs_unlink` use the directory that `resolve_parent` finds, `vfs_resolve`
walks the whole path from the nearest mount point.  The two agree: a path that is not itself a mount
point is in the mount of its parent.
-/

import LighthOS.Fs.FileOffsets

namespace LighthOS

/-- The parent of a canonical path. -/
theorem splitParent_joinPath {cs : List CString} {c : CString} (hc : Component c)
    (hlen : (joinPath (cs ++ [c])).length < vfsMaxPath) :
    splitParent (joinPath (cs ++ [c])) = some (joinPath cs, c) := by
  have hjoin : joinPath (cs ++ [c]) = (cs.flatMap fun c => '/' :: c) ++ '/' :: c := by simp [joinPath]
  have hne : ∀ x ∈ c.reverse, (x != '/') = true := fun x hx =>
    bne_iff_ne.2 fun he => hc.2.2.2 (he ▸ List.mem_reverse.1 hx)
  have hname : ((joinPath (cs ++ [c])).reverse.takeWhile (· != '/')).reverse = c := by
    rw [hjoin, List.reverse_append, List.reverse_cons, List.append_assoc, List.takeWhile_append_of_pos hne]
    simp
  simp only [splitParent, hname]
  rw [hjoin, List.length_append, List.length_cons] at hlen ⊢
  rw [if_neg (by simp), Nat.add_sub_assoc (by omega), List.take_left' (by omega), joinPath]
  cases cs with
  | nil => rfl
  | cons d cs => rw [if_neg (by simp), if_neg (by omega), if_neg (by simp)]

/-- What is behind the mount point are the other components. -/
theorem components_pathRemainder {point path : CString} (hp : Canonical point) (hq : Canonical path)
    (h : components point <+: components path) :
    components ((pathRemainder (path.drop point.length)).getD []) = (components path).drop (components point).length := by
  rcases pathRemainder_spec hp hq h with ⟨rfl, hrem⟩ | ⟨rest, -, rfl, hrem⟩
  · rw [hrem, Option.getD_none, components_nil, List.drop_length]
  · rw [hrem, components_append, rootPrefix, Option.getD_some]
    split_ifs with hroot
    · rw [hroot]
      rfl
    · rw [List.drop_left]

/-- The mount points on the way to a path are those on the way to its parent, and perhaps the path. -/
theorem crossed_parent {F : Type} {ms : List (VfsMount F)} (hok : MountsOk ms) {dir path c : CString}
    (hd : Canonical dir) (hp : Canonical path) (hc : components path = components dir ++ [c])
    (hpoint : ∀ m ∈ ms, m.inUse = true → m.mountPoint ≠ path) : crossed ms path = crossed ms dir := by
  refine List.filter_congr fun e he => ?_
  cases huse : e.1.inUse with
  | false => rfl
  | true =>
      have hmem := List.mem_of_getElem? (List.mem_zipIdx_iff_getElem?.1 he)
      have hcan := hok.canonical e.1 hmem huse
      congr 2
      rw [Bool.eq_iff_iff, crosses_iff hcan hp, crosses_iff hcan hd, hc, List.prefix_concat_iff, or_iff_right]
      exact fun he => hpoint e.1 hmem huse (by rw [hcan.eq_joinPath, he, ← hc, ← hp.eq_joinPath])

section Lookup

variable {σ : Type} {env : FsEnv σ} {s : FsState σ}

/-- Empty components are skipped. -/
theorem resolveFrom_splitOn (l : CString) (node : VfsNode) (s : FsState σ) :
    resolveFrom env (l.splitOn '/') node s = resolveFrom env (components l) node s := by
  unfold components
  induction l.splitOn '/' generalizing node s with
  | nil => rfl
  | cons c cs ih => by_cases hc : c = [] <;> simp [hc, resolveFrom, ih]

theorem resolveFrom_append (cs ds : List CString) (node : VfsNode) (s : FsState σ) :
    resolveFrom env (cs ++ ds) node s = (resolveFrom env cs node s).bind fun r =>
      r.1.elim (some (none, r.2)) fun node => resolveFrom env ds node r.2 := by
  induction cs generalizing node s with
  | nil => rfl
  | cons c cs ih =>
      simp only [List.cons_append, resolveFrom]
      split_ifs
      · exact ih node s
      · rfl
      · rcases finddir env node c s with _ | ⟨_ | node, s⟩
        · rfl
        · rfl
        · exact ih node s

/-- **A path is looked up in its parent.**  After any mounts and unmounts, where nothing is mounted at the
path itself, `find_mount` chooses one mount for the path and for its parent, and `vfs_resolve` comes to
the node of `resolve_parent`, in the same state, and looks the name up there. -/
theorem vfsResolve_eq_parent (hm : (mountSystem VfsNode).Reaches s.mounts) {path : CString} (hpath : Canonical path)
    (hroot : path ≠ ['/']) (hlen : path.length < vfsMaxPath)
    (hpoint : ∀ m ∈ s.mounts, m.inUse = true → m.mountPoint ≠ path) :
    (∀ dir name, splitParent path = some (dir, name) →
      (findMount s.mounts path).map Prod.fst = (findMount s.mounts dir).map Prod.fst) ∧
    vfsResolve env path s = (resolveParent env path s).bind fun r =>
      r.1.elim (some (none, r.2)) fun parent => resolveFrom env [parent.2] parent.1 r.2 := by
  have hok := MountsOk.of_reaches hm
  obtain ⟨comps, hcomps, rfl⟩ := id hpath
  obtain rfl | ⟨cs, c, rfl⟩ := List.eq_nil_or_concat' comps
  · exact absurd rfl hroot
  have hcs : ∀ d ∈ cs, Component d := fun d hd => hcomps d (by simp [hd])
  have hdir : Canonical (joinPath cs) := ⟨cs, hcs, rfl⟩
  have hc : components (joinPath (cs ++ [c])) = components (joinPath cs) ++ [c] := by
    rw [components_joinPath hcomps, components_joinPath hcs]
  have hcrossed := crossed_parent hok hdir hpath hc hpoint
  rw [resolveParent, splitParent_joinPath (hcomps c (by simp)) hlen]
  refine ⟨fun dir name hsplit => ?_, ?_⟩
  · obtain ⟨rfl, rfl⟩ := Prod.mk.inj (Option.some.inj hsplit)
    simp only [findMount, bestMount_eq, hcrossed, Option.map_map, Function.comp_def]
  simp only [vfsResolve]
  rw [route_eq, route_eq, hcrossed]
  cases hbest : (crossed s.mounts (joinPath cs)).argmax fun e => e.1.mountPoint.length with
  | none => rfl
  | some e =>
      obtain ⟨hi, huse, hpre⟩ := (mem_crossed hok hdir).1 (List.argmax_mem hbest)
      have hcan := hok.canonical e.1 (List.mem_of_getElem? hi) huse
      have hrem := components_pathRemainder hcan hpath (hc ▸ hpre.trans (List.prefix_append _ _))
      rw [hc, List.drop_append_of_le_length hpre.length_le, ← components_pathRemainder hcan hdir hpre] at hrem
      simp only [Option.map_some]
      cases e.1.fs with
      | none => rfl
      | some root =>
          simp only [resolveFrom_splitOn, hrem, resolveFrom_append]
          rcases resolveFrom env _ root s with _ | ⟨_ | node, s⟩ <;> rfl

end Lookup

/-- A file system in memory, and procfs mounted in it. -/
def procMounted : FsState Unit :=
  { mountedRam (emptyRam 8192) 0 with
    mounts := (vfsMount (mountedRam (emptyRam 8192) 0).mounts "/proc".toList (.proc .root 0)).2 }

/-- The hypotheses of `vfsResolve_eq_parent` are satisfiable: `/proc/meminfo` is found in the second mount. -/
theorem vfsResolve_eq_parent_proc :
    (findMount procMounted.mounts "/proc/meminfo".toList).map Prod.fst = some 1 ∧
      ∃ s', vfsResolve bareEnv "/proc/meminfo".toList procMounted = some (some (.proc .meminfo 0), s') := by
  have hproc : Component "proc".toList := by simp [Component]
  have hreach : (mountSystem VfsNode).Reaches procMounted.mounts :=
    .step (.step (.init rfl) (a := .mount ['/'] (.ram 0)) ⟨⟨⟨[], by simp, rfl⟩, by decide⟩, rfl⟩)
      (a := .mount "/proc".toList (.proc .root 0)) ⟨⟨.single hproc, by decide⟩, rfl⟩
  have hpath : Canonical "/proc/meminfo".toList := ⟨["proc".toList, "meminfo".toList], by simp [Component], rfl⟩
  obtain ⟨hmount, hresolve⟩ := @vfsResolve_eq_parent _ bareEnv _ hreach _ hpath (by decide) (by decide) (by decide)
  have hrun : (vfsResolve bareEnv "/proc/meminfo".toList procMounted).any
      (fun r => r.1 = some (.proc .meminfo 0)) = true := by
    rw [hresolve]
    decide +kernel
  obtain ⟨⟨node, s'⟩, hs', hnode⟩ := (Option.any_eq_true _ _).1 hrun
  obtain rfl : node = some (.proc .meminfo 0) := of_decide_eq_true hnode
  exact ⟨(hmount "/proc".toList "meminfo".toList (by decide)).trans (by decide +kernel), s', hs'⟩

end LighthOS
