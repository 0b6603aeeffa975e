/-
# The mount table

`vfs_mount`, `vfs_umount` and `find_mount` of `src/fs/vfs.c`, on a table of
`MAX_MOUNTS` entries.  A mount point is compared with a path as a string, at a path
boundary, with a special case for `"/"`; on canonical paths this is the comparison of
their components (`crosses_iff`), and the loop of `find_mount`, which keeps the first
entry of the greatest length, is `List.argmax` (`bestMount_eq`).

A mount point is taken by one entry at most, since `vfs_mount` detaches what is mounted
there before it looks for a free entry (`MountsOk.vfsMount`).  An entry that it detaches
is free, so that a call that fails has detached nothing (`vfsMount_failed`).
-/

import LighthOS.Kernel.Path
import Mathlib.Data.List.MinMax

namespace LighthOS

variable {F : Type}

/-- `MAX_MOUNTS`. -/
def maxMounts : ℕ := 8

/-- `vfs_mount_t`; the root node, the operations and the data of the file system are one
value, none for null pointers. -/
structure VfsMount (F : Type) where
  mountPoint : CString
  fs : Option F
  inUse : Bool
  deriving DecidableEq

/-- `vfs_init`. -/
def vfsInit (F : Type) : List (VfsMount F) := List.replicate maxMounts ⟨[], none, false⟩

/-- `mounts[i].in_use && strcmp(mounts[i].mount_point, path) == 0`. -/
def VfsMount.isAt (path : CString) (m : VfsMount F) : Bool := m.inUse && m.mountPoint == path

/-- The first loop of `vfs_mount`. -/
def detach (ms : List (VfsMount F)) (path : CString) : List (VfsMount F) :=
  ms.map fun m => if m.isAt path then { m with inUse := false } else m

/-- `vfs_mount`: whether it succeeded (`0` against `-1`). -/
def vfsMount (ms : List (VfsMount F)) (path : CString) (fs : F) : Bool × List (VfsMount F) :=
  let ms := detach ms path
  match ms.findIdx? fun m => !m.inUse with
  | some i => (true, ms.set i ⟨path.take (vfsMaxPath - 1), some fs, true⟩)
  | none => (false, ms)

/-- `vfs_umount`: whether it succeeded. -/
def vfsUmount (ms : List (VfsMount F)) (path : CString) : Bool × List (VfsMount F) :=
  match ms.findIdx? (VfsMount.isAt path) with
  | some i => (true, ms.modify i fun m => { m with inUse := false })
  | none => (false, ms)

/-- `path` starts with the mount point, and goes on at a path boundary. -/
def crosses (point path : CString) : Bool :=
  point.isPrefixOf path &&
    (point.length == 1 || path[point.length]? == some '/' || path[point.length]? == none)

/-- The loop of `find_mount`: the best entry, by its index, and its length. -/
def bestMount (ms : List (VfsMount F)) (path : CString) : Option ℕ × ℕ :=
  ms.zipIdx.foldl (fun best e =>
    if e.1.inUse && crosses e.1.mountPoint path && best.2 < e.1.mountPoint.length then
      (some e.2, e.1.mountPoint.length)
    else best) (none, 0)

/-- The remainder of a path behind its mount point, none for `NULL`. -/
def pathRemainder (rest : CString) : Option CString :=
  let rest := if rest.head? = some '/' then rest.tail else rest
  if rest = [] then none else some rest

/-- `find_mount`: the index of the entry, and the remainder. -/
def findMount (ms : List (VfsMount F)) (path : CString) : Option (ℕ × Option CString) :=
  let best := bestMount ms path
  best.1.map fun i => (i, pathRemainder (path.drop best.2))

/-! ### Components -/

/-- **The string comparison of `find_mount`** compares components, and what is behind the
mount point is the rest of the components. -/
theorem crosses_iff {point path : CString} (hp : Canonical point) (hq : Canonical path) :
    crosses point path = true ↔ components point <+: components path := by
  obtain ⟨a, ha, rfl⟩ := hp
  obtain ⟨b, hb, rfl⟩ := hq
  rw [components_joinPath ha, components_joinPath hb, crosses, Bool.and_eq_true, List.isPrefixOf_iff_prefix]
  constructor
  · rintro ⟨⟨rest, hrest⟩, hend⟩
    by_cases hnil : a = []
    · rw [hnil]
      exact List.nil_prefix
    have hlen : (joinPath a).length ≠ 1 := by
      obtain ⟨c, cs, rfl⟩ := List.exists_cons_of_ne_nil hnil
      have hc := (ha c List.mem_cons_self).1
      have hpos := List.length_pos_iff.2 hc
      simp only [joinPath, if_neg hnil, List.flatMap_cons, List.length_append, List.length_cons]
      omega
    rw [← hrest] at hend
    have hcomp := congrArg components hrest
    rw [components_joinPath hb] at hcomp
    simp only [Bool.or_eq_true, beq_iff_eq, hlen, false_or, List.getElem?_append_right le_rfl,
      Nat.sub_self] at hend
    cases rest with
    | nil => exact ⟨[], by rw [← hcomp, List.append_nil, List.append_nil, components_joinPath ha]⟩
    | cons c rest =>
        simp only [List.getElem?_cons_zero, Option.some.injEq, reduceCtorEq, or_false] at hend
        rw [hend, components_append, components_joinPath ha] at hcomp
        exact ⟨_, hcomp⟩
  · rintro ⟨c, rfl⟩
    by_cases hnil : a = []
    · obtain ⟨l, hl⟩ := joinPath_eq_cons ([] ++ c)
      rw [hnil, hl]
      exact ⟨⟨l, rfl⟩, by simp [joinPath]⟩
    · rw [joinPath_append hnil]
      refine ⟨List.prefix_append _ _, ?_⟩
      rw [List.getElem?_append_right le_rfl, Nat.sub_self]
      cases c with
      | nil => simp
      | cons d c => simp

/-- **The remainder**: nothing, or what is behind the mount point and a slash. -/
theorem pathRemainder_spec {point path : CString} (hp : Canonical point) (hq : Canonical path)
    (h : components point <+: components path) :
    path = point ∧ pathRemainder (path.drop point.length) = none ∨
      ∃ rest, rest ≠ [] ∧ path = rootPrefix point ++ '/' :: rest ∧
        pathRemainder (path.drop point.length) = some rest := by
  obtain ⟨a, ha, rfl⟩ := hp
  obtain ⟨b, hb, rfl⟩ := hq
  rw [components_joinPath ha, components_joinPath hb] at h
  obtain ⟨c, rfl⟩ := h
  cases c with
  | nil =>
      refine Or.inl ⟨by rw [List.append_nil], ?_⟩
      rw [List.append_nil, List.drop_length]
      rfl
  | cons d c =>
      right
      obtain ⟨hne, -, -, hslash⟩ := hb d (by simp)
      have hrest : d ++ (c.flatMap fun x => '/' :: x) ≠ [] := by simp [hne]
      -- a component does not start with a slash
      have hhead : (d ++ (c.flatMap fun x => '/' :: x)).head? ≠ some '/' := by
        obtain ⟨x, d, rfl⟩ := List.exists_cons_of_ne_nil hne
        rw [List.cons_append, List.head?_cons, ne_eq, Option.some.injEq]
        rintro rfl
        exact hslash List.mem_cons_self
      by_cases hnil : a = []
      · subst hnil
        refine ⟨_, hrest, ?_, ?_⟩
        · simp [joinPath, rootPrefix]
        · have hdrop : (joinPath ([] ++ d :: c)).drop (joinPath []).length
              = d ++ c.flatMap fun x => '/' :: x := by simp [joinPath]
          rw [hdrop, pathRemainder, if_neg hhead, if_neg hrest]
      · have hroot : rootPrefix (joinPath a) = joinPath a := by
          refine if_neg fun he => ?_
          have hcomp := congrArg components he
          rw [components_joinPath ha] at hcomp
          exact hnil hcomp
        refine ⟨_, hrest, ?_, ?_⟩
        · rw [hroot, joinPath_append hnil]
          simp
        · rw [joinPath_append hnil, List.drop_left, List.flatMap_cons, List.cons_append, pathRemainder]
          simp [hne]

/-! ### The entry that is found -/

/-- The entries whose mount points `path` crosses, with their indices. -/
def crossed (ms : List (VfsMount F)) (path : CString) : List (VfsMount F × ℕ) :=
  ms.zipIdx.filter fun e => e.1.inUse && crosses e.1.mountPoint path && decide (0 < e.1.mountPoint.length)

/-- **The loop of `find_mount`** keeps the first of the longest. -/
theorem bestMount_eq (ms : List (VfsMount F)) (path : CString) :
    bestMount ms path = (((crossed ms path).argmax fun e => e.1.mountPoint.length).map Prod.snd,
      (((crossed ms path).argmax fun e => e.1.mountPoint.length).map fun e => e.1.mountPoint.length).getD 0) := by
  unfold bestMount crossed
  induction ms.zipIdx using List.reverseRecOn with
  | nil => rfl
  | append_singleton l e ih =>
      rw [List.foldl_append, ih, List.filter_append, List.foldl_cons, List.foldl_nil]
      cases hc : e.1.inUse && crosses e.1.mountPoint path with
      | false => simp [hc]
      | true =>
          cases ha : (l.filter fun e => e.1.inUse && crosses e.1.mountPoint path &&
              decide (0 < e.1.mountPoint.length)).argmax fun e => e.1.mountPoint.length with
          | none =>
              by_cases hpos : 0 < e.1.mountPoint.length
              · simp [hc, hpos, List.argmax_concat, ha]
              · simp [hc, hpos, ha]
          | some b =>
              have hb := List.of_mem_filter (List.argmax_mem ha)
              simp only [Bool.and_eq_true, decide_eq_true_eq] at hb
              by_cases hlt : b.1.mountPoint.length < e.1.mountPoint.length
              · simp [hc, List.argmax_concat, ha, hlt, hb.2.trans hlt]
              · by_cases hpos : 0 < e.1.mountPoint.length
                · simp [hc, List.argmax_concat, ha, hlt, hpos]
                · simp [hc, ha, hlt, hpos]

/-- What `find_mount` should find: the entry in use whose mount point is the longest prefix
of the path by components, and the rest of the path. -/
def Routed (ms : List (VfsMount F)) (path : CString) : Option (ℕ × Option CString) → Prop
  | none => ∀ m ∈ ms, m.inUse = true → ¬components m.mountPoint <+: components path
  | some (i, rem) => ∃ m, ms[i]? = some m ∧ m.inUse = true ∧
      components m.mountPoint <+: components path ∧
      (path = m.mountPoint ∧ rem = none ∨
        ∃ rest, rest ≠ [] ∧ path = rootPrefix m.mountPoint ++ '/' :: rest ∧ rem = some rest) ∧
      ∀ j m', ms[j]? = some m' → m'.inUse = true → components m'.mountPoint <+: components path →
        j ≠ i → (components m'.mountPoint).length < (components m.mountPoint).length

/-- A table with one entry for each mount point, which is a canonical path. -/
structure MountsOk (ms : List (VfsMount F)) : Prop where
  canonical : ∀ m ∈ ms, m.inUse = true → Canonical m.mountPoint
  unique : ∀ (i j : ℕ) (m m' : VfsMount F), ms[i]? = some m → ms[j]? = some m' → m.inUse = true →
    m'.inUse = true → m.mountPoint = m'.mountPoint → i = j

/-- The lengths of two paths that are prefixes of one compare as their components do. -/
theorem length_le_of_components {p q path : CString} (hp : Canonical p) (hq : Canonical q)
    (h₁ : components p <+: components path) (h₂ : components q <+: components path)
    (hlen : p.length ≤ q.length) : components p <+: components q := by
  rcases List.prefix_or_prefix_of_prefix h₁ h₂ with h | h
  · exact h
  · have hqp : q <+: p := List.isPrefixOf_iff_prefix.1 (Bool.and_eq_true _ _ ▸ (crosses_iff hq hp).2 h).1
    rw [hqp.eq_of_length (le_antisymm hqp.length_le hlen)]

section

variable {ms : List (VfsMount F)} {path : CString}

theorem mem_crossed (hok : MountsOk ms) (hpath : Canonical path) {m : VfsMount F} {i : ℕ} : (m, i) ∈ crossed ms path ↔
      ms[i]? = some m ∧ m.inUse = true ∧ components m.mountPoint <+: components path := by
  rw [crossed, List.mem_filter, List.mk_mem_zipIdx_iff_getElem?]
  simp only [Bool.and_eq_true, decide_eq_true_eq, and_assoc]
  refine and_congr_right fun hi => and_congr_right fun huse => ?_
  have hcan := hok.canonical m (List.mem_of_getElem? hi) huse
  rw [crosses_iff hcan hpath]
  refine and_iff_left ?_
  obtain ⟨comps, -, he⟩ := hcan
  obtain ⟨l, hl⟩ := joinPath_eq_cons comps
  rw [he, hl]
  simp

/-- **`find_mount`** finds the longest mount point. -/
theorem MountsOk.routed (hok : MountsOk ms) (hpath : Canonical path) : Routed ms path (findMount ms path) := by
  unfold findMount
  rw [bestMount_eq]
  cases ha : (crossed ms path).argmax fun e => e.1.mountPoint.length with
  | none =>
      intro m hm huse hc
      obtain ⟨i, hi⟩ := List.mem_iff_getElem?.1 hm
      have hmem := (mem_crossed hok hpath).2 ⟨hi, huse, hc⟩
      rw [List.argmax_eq_none] at ha
      rw [ha] at hmem
      cases hmem
  | some e =>
      obtain ⟨m, i⟩ := e
      obtain ⟨hi, huse, hc⟩ := (mem_crossed hok hpath).1 (List.argmax_mem ha)
      have hcan := hok.canonical m (List.mem_of_getElem? hi) huse
      refine ⟨m, hi, huse, hc, pathRemainder_spec hcan hpath hc, fun j m' hj huse' hc' hne => ?_⟩
      have hcan' := hok.canonical m' (List.mem_of_getElem? hj) huse'
      have hle := List.le_of_mem_argmax ((mem_crossed hok hpath).2 ⟨hj, huse', hc'⟩) ha
      have hpre := length_le_of_components hcan' hcan hc' hc hle
      refine lt_of_le_of_ne hpre.length_le fun hlen => hne ?_
      have heq := hpre.eq_of_length hlen
      exact hok.unique j i m' m hj hi huse' huse (by rw [hcan'.eq_joinPath, heq, ← hcan.eq_joinPath])

/-! ### Mounting and unmounting -/

theorem mem_detach {i : ℕ} {m : VfsMount F} (hi : (detach ms path)[i]? = some m) (huse : m.inUse = true) :
    ms[i]? = some m ∧ m.mountPoint ≠ path := by
  rw [detach, List.getElem?_map] at hi
  obtain ⟨m₀, hi₀, hm⟩ := Option.map_eq_some_iff.1 hi
  split_ifs at hm with hat
  · rw [← hm] at huse
    cases huse
  · subst hm
    refine ⟨hi₀, fun he => hat ?_⟩
    rw [VfsMount.isAt, huse, he, Bool.true_and, beq_self_eq_true]

/-- Where nothing is mounted, nothing is detached. -/
theorem detach_eq (h : ∀ m ∈ ms, m.isAt path = false) :
    detach ms path = ms := by
  refine (List.map_congr_left fun m hm => ?_).trans (List.map_id ms)
  rw [h m hm]
  rfl

/-- **A `vfs_mount` that fails** changes nothing: what it detaches is free. -/
theorem vfsMount_failed {fs : F} (h : (vfsMount ms path fs).1 = false) : (vfsMount ms path fs).2 = ms := by
  unfold vfsMount at h ⊢
  cases hf : (detach ms path).findIdx? fun m => !m.inUse with
  | some i =>
      simp only [hf] at h
      cases h
  | none =>
      simp only [hf]
      rw [List.findIdx?_eq_none_iff] at hf
      refine detach_eq fun m hm => ?_
      cases hat : m.isAt path with
      | false => rfl
      | true =>
          have hfree := hf _ (List.mem_map_of_mem (f := fun m : VfsMount F =>
            if m.isAt path then { m with inUse := false } else m) hm)
          simp [hat] at hfree

/-- **`vfs_mount`** keeps one entry for each mount point. -/
theorem MountsOk.vfsMount (hok : MountsOk ms) (fs : F)
    (hpath : Canonical path) (hlen : path.length < vfsMaxPath) : MountsOk (vfsMount ms path fs).2 := by
  have hdetach : MountsOk (detach ms path) := by
    refine ⟨fun m hm huse => ?_, fun i j m m' hi hj huse huse' he => ?_⟩
    · obtain ⟨i, hi⟩ := List.mem_iff_getElem?.1 hm
      exact hok.canonical m (List.mem_of_getElem? (mem_detach hi huse).1) huse
    · exact hok.unique i j m m' (mem_detach hi huse).1 (mem_detach hj huse').1 huse huse' he
  have htake : path.take (vfsMaxPath - 1) = path := List.take_of_length_le (Nat.le_sub_one_of_lt hlen)
  unfold LighthOS.vfsMount
  cases hf : (detach ms path).findIdx? fun m => !m.inUse with
  | none => simpa only [hf] using hdetach
  | some n =>
      simp only [hf, htake]
      -- the new entry, or one that was in use for another path
      have hcases : ∀ {i : ℕ} {m : VfsMount F}, ((detach ms path).set n ⟨path, some fs, true⟩)[i]? = some m →
          m.inUse = true → i = n ∧ m.mountPoint = path ∨
            (detach ms path)[i]? = some m ∧ m.mountPoint ≠ path := by
        intro i m hi huse
        rw [List.getElem?_set] at hi
        split_ifs at hi with hin hlt
        · cases hi
          exact Or.inl ⟨hin.symm, rfl⟩
        · exact Or.inr ⟨hi, (mem_detach hi huse).2⟩
      refine ⟨fun m hm huse => ?_, fun i j m m' hi hj huse huse' he => ?_⟩
      · obtain ⟨i, hi⟩ := List.mem_iff_getElem?.1 hm
        rcases hcases hi huse with ⟨-, hp⟩ | ⟨hi, -⟩
        · rw [hp]
          exact hpath
        · exact hdetach.canonical m (List.mem_of_getElem? hi) huse
      · rcases hcases hi huse with ⟨hin, hp⟩ | ⟨hi, hne⟩
        · rcases hcases hj huse' with ⟨hjn, -⟩ | ⟨-, hne'⟩
          · rw [hin, hjn]
          · exact absurd (he ▸ hp) hne'
        · rcases hcases hj huse' with ⟨-, hp'⟩ | ⟨hj, -⟩
          · exact absurd (he.trans hp') hne
          · exact hdetach.unique i j m m' hi hj huse huse' he

/-- **`vfs_umount`** only takes entries out of use. -/
theorem MountsOk.vfsUmount (hok : MountsOk ms) (path : CString) :
    MountsOk (vfsUmount ms path).2 := by
  unfold LighthOS.vfsUmount
  cases hf : ms.findIdx? (VfsMount.isAt path) with
  | none => exact hok
  | some n =>
      simp only
      have hold : ∀ {i : ℕ} {m : VfsMount F}, (ms.modify n fun m => { m with inUse := false })[i]? = some m →
          m.inUse = true → ms[i]? = some m := by
        intro i m hi huse
        rw [List.getElem?_modify] at hi
        obtain ⟨m₀, hi₀, hm⟩ := Option.map_eq_some_iff.1 hi
        split_ifs at hm
        · rw [← hm] at huse
          cases huse
        · rw [hi₀, ← hm]
      refine ⟨fun m hm huse => ?_, fun i j m m' hi hj huse huse' he => ?_⟩
      · obtain ⟨i, hi⟩ := List.mem_iff_getElem?.1 hm
        exact hok.canonical m (List.mem_of_getElem? (hold hi huse)) huse
      · exact hok.unique i j m m' (hold hi huse) (hold hj huse') huse huse' he

/-! ### Routing -/

/-- Where a path leads: the entry and the remainder. -/
def route (ms : List (VfsMount F)) (path : CString) : Option (VfsMount F × Option CString) :=
  (findMount ms path).bind fun r => ms[r.1]?.map fun m => (m, r.2)

/-- An entry that is not in use does not matter. -/
theorem crossed_set (ms : List (VfsMount F)) (path : CString) {n : ℕ} {a : VfsMount F} (ha : a.inUse = false)
    (hn : ∀ m ∈ ms[n]?, m.inUse = false) : crossed (ms.set n a) path = crossed ms path := by
  have hset : ∀ (l : List (VfsMount F)) (n k : ℕ), (∀ m ∈ l[n]?, m.inUse = false) →
      ((l.set n a).zipIdx k).filter (fun e => e.1.inUse && crosses e.1.mountPoint path &&
        decide (0 < e.1.mountPoint.length)) = (l.zipIdx k).filter fun e => e.1.inUse &&
          crosses e.1.mountPoint path && decide (0 < e.1.mountPoint.length) := by
    intro l
    induction l with
    | nil => exact fun _ _ _ => rfl
    | cons m l ih =>
        intro n k hm
        cases n with
        | zero =>
            have hm := hm m rfl
            simp [List.zipIdx_cons, ha, hm]
        | succ n =>
            rw [List.set_cons_succ, List.zipIdx_cons, List.zipIdx_cons, List.filter_cons, List.filter_cons,
              ih n (k + 1) hm]
  exact hset ms n 0 hn

theorem route_eq (ms : List (VfsMount F)) (path : CString) :
    route ms path = ((crossed ms path).argmax fun e => e.1.mountPoint.length).map fun e =>
      (e.1, pathRemainder (path.drop e.1.mountPoint.length)) := by
  unfold route findMount
  rw [bestMount_eq]
  cases ha : (crossed ms path).argmax fun e => e.1.mountPoint.length with
  | none => rfl
  | some e =>
      have hmem := (List.mem_filter.1 (List.argmax_mem ha)).1
      rw [List.mem_zipIdx_iff_getElem?] at hmem
      simp [hmem]

/-- **Mounting and unmounting** at a path without a mount restores the routing. -/
theorem route_mount_umount {p : CString} (fs : F) (hlen : p.length < vfsMaxPath)
    (hp : ∀ m ∈ ms, m.isAt p = false) (path : CString) :
    route (vfsUmount (vfsMount ms p fs).2 p).2 path = route ms path := by
  have htake : p.take (vfsMaxPath - 1) = p := List.take_of_length_le (Nat.le_sub_one_of_lt hlen)
  unfold vfsMount
  rw [detach_eq hp]
  cases hf : ms.findIdx? fun m => !m.inUse with
  | none =>
      have hnone : ms.findIdx? (VfsMount.isAt p) = none := List.findIdx?_eq_none_iff.2 hp
      simp only [hf, vfsUmount, hnone]
  | some n =>
      simp only [hf, htake]
      obtain ⟨hn, hfree, -⟩ := List.findIdx?_eq_some_iff_getElem.1 hf
      have hnew : VfsMount.isAt p (⟨p, some fs, true⟩ : VfsMount F) = true := by simp [VfsMount.isAt]
      -- the new entry is the only one at the path
      have hat : (ms.set n ⟨p, some fs, true⟩).findIdx? (VfsMount.isAt p) = some n := by
        rw [List.findIdx?_eq_some_iff_getElem]
        refine ⟨by simpa using hn, by rw [List.getElem_set_self]; exact hnew, fun j hj => ?_⟩
        rw [List.getElem_set_ne hj.ne']
        simpa using hp _ (List.getElem_mem _)
      simp only [vfsUmount, hat]
      have hmod : (ms.set n ⟨p, some fs, true⟩).modify n (fun m => { m with inUse := false })
          = ms.set n ⟨p, some fs, false⟩ := by
        refine List.ext_getElem? fun i => ?_
        rw [List.getElem?_modify, List.getElem?_set, List.getElem?_set]
        split_ifs <;> simp
      rw [hmod, route_eq, route_eq, crossed_set ms path rfl]
      intro m hm
      rw [List.getElem?_eq_getElem hn, Option.mem_some_iff] at hm
      rw [← hm]
      simpa using hfree

end

/-! ### Runs -/

/-- What happens to the table. -/
inductive MountOp (F : Type)
  | mount (path : CString) (fs : F)
  | umount (path : CString)

/-- The path of a call. -/
def MountOp.path : MountOp F → CString
  | .mount path _ | .umount path => path

/-- One call. -/
def mountStep (ms : List (VfsMount F)) : MountOp F → Option (List (VfsMount F))
  | .mount path fs => some (vfsMount ms path fs).2
  | .umount path => some (vfsUmount ms path).2

/-- The calls with canonical paths that the table holds. -/
def mountSystem (F : Type) : System (List (VfsMount F)) (MountOp F) :=
  (System.ofFun (fun ms => ms = vfsInit F) mountStep).restrict fun _ op =>
    Canonical op.path ∧ op.path.length < vfsMaxPath

theorem MountsOk.of_reaches {ms : List (VfsMount F)} (h : (mountSystem F).Reaches ms) : MountsOk ms := by
  refine h.invariant (fun ms h₀ => ?_) fun ms op ms' hok hs => ?_
  · have hfree : ∀ m ∈ ms, m.inUse = false := by
      intro m hm
      rw [show ms = vfsInit F from h₀] at hm
      rw [List.eq_of_mem_replicate hm]
    refine ⟨fun m hm huse => ?_, fun i j m m' hi _ huse => ?_⟩
    · rw [hfree m hm] at huse
      cases huse
    · rw [hfree m (List.mem_of_getElem? hi)] at huse
      cases huse
  · obtain ⟨⟨hpath, hlen⟩, hs⟩ := hs
    cases op with
    | mount path fs =>
        cases hs
        exact hok.vfsMount fs hpath hlen
    | umount path =>
        cases hs
        exact hok.vfsUmount path

/-- **The mount table and its routing.**  After any calls with canonical paths, a mount point
has one entry at most; `find_mount` finds the longest mount point; a mount and an unmount
at a path without a mount restore the routing of every path; and a mount that fails
changes nothing. -/
theorem mounts_route {ms : List (VfsMount F)} (h : (mountSystem F).Reaches ms) :
    (∀ (i j : ℕ) (m m' : VfsMount F), ms[i]? = some m → ms[j]? = some m' → m.inUse = true →
      m'.inUse = true → m.mountPoint = m'.mountPoint → i = j) ∧
    (∀ path, Canonical path → Routed ms path (findMount ms path)) ∧
    (∀ p fs, Canonical p → p.length < vfsMaxPath → (∀ m ∈ ms, m.inUse = true → m.mountPoint ≠ p) →
      ∀ path, Canonical path → route (vfsUmount (vfsMount ms p fs).2 p).2 path = route ms path) ∧
    ∀ p fs, (vfsMount ms p fs).1 = false → (vfsMount ms p fs).2 = ms := by
  have hok := MountsOk.of_reaches h
  refine ⟨hok.unique, fun path hpath => hok.routed hpath, fun p fs _ hlen hp path _ => ?_,
    fun p fs hfail => vfsMount_failed hfail⟩
  refine route_mount_umount fs hlen (fun m hm => ?_) path
  cases hat : m.isAt p with
  | false => rfl
  | true =>
      rw [VfsMount.isAt, Bool.and_eq_true, beq_iff_eq] at hat
      exact absurd hat.2 (hp m hm hat.1)

/-- A path of one component. -/
theorem Canonical.single {c : CString} (h : Component c) : Canonical ('/' :: c) :=
  ⟨[c], by simpa using h, by simp [joinPath]⟩

/-- The hypothesis of `mounts_route` is satisfiable: with file systems at `"/"`, `"/a"` and
`"/ab"`, the path `"/ab/c"` leads to the third one. -/
theorem mounts_route_siblings : ∃ ms, (mountSystem ℕ).Reaches ms ∧
    findMount ms "/ab/c".toList = some (2, some ['c']) ∧
    (∀ path, Canonical path → Routed ms path (findMount ms path)) := by
  have hroot : Canonical ['/'] := ⟨[], by simp, rfl⟩
  have ha : Canonical "/a".toList := .single (c := ['a']) (by simp [Component])
  have hab : Canonical "/ab".toList := .single (c := ['a', 'b']) (by simp [Component])
  have hstep : ∀ {ms p} (fs : ℕ), (mountSystem ℕ).Reaches ms → Canonical p → p.length < vfsMaxPath →
      (mountSystem ℕ).Reaches (vfsMount ms p fs).2 :=
    fun {ms p} fs h hp hlen => h.step (a := MountOp.mount p fs) ⟨⟨hp, hlen⟩, rfl⟩
  have hreach := hstep 2 (hstep 1 (hstep 0 (.init rfl) hroot (by decide)) ha (by decide)) hab (by decide)
  exact ⟨_, hreach, by decide +kernel, (mounts_route hreach).2.1⟩

end LighthOS
