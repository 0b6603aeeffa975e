/-
# A directory of ramfs is a map

`ramfs_create`, `ramfs_mkdir`, `ramfs_unlink`, `ramfs_finddir` and `ramfs_readdir` of
`src/fs/ramfs.c` on one directory.  The children are compared with the name of the caller in
full, but their own names are cut off at 63 characters: two files of one long name can be
made, and none of them is found (`ramfs_longName_twice`).

With shorter names, and memory for the nodes that `ramfs_finddir` makes, the directory is a
finite map from names to inodes (`ramfs_dir_map`).  The heap is the one of `src/mm/heap.c`;
anything else may happen on it between the calls that leaves the directory, its inodes and
their buffers alone.
-/

import LighthOS.Fs.Vfs
import LighthOS.Mm.HeapRuns

namespace LighthOS

variable {start e : ℕ} {r r' : RamFs} {dir : ℕ}

/-- The blocks of an inode: itself and the buffer of the file. -/
def inodeBlocks (r : RamFs) (c : ℕ) : List ℕ :=
  c :: if (r.inodes c).data = 0 then [] else [(r.inodes c).data]

/-- The blocks of a directory and of what is in it. -/
def dirBlocks (r : RamFs) (dir : ℕ) : List ℕ :=
  dir :: (r.inodes dir).children.flatMap (inodeBlocks r)

/-- The blocks of the directory are different blocks in use. -/
def HoldsDir (start e : ℕ) (r : RamFs) (dir : ℕ) : Prop :=
  ∃ live l, HeapInv start e ⟨r.heap, live⟩ l ∧ (dirBlocks r dir).Nodup ∧
    ∀ p ∈ dirBlocks r dir, (live p).isSome = true

/-- Whether `kmalloc` gives a block of `n` bytes. -/
def hasRoom (heap : Heap) (n : ℕ) : Bool := (kmalloc heap n).any fun r => r.1 != 0

/-- The calls on a directory. -/
inductive DirOp
  | create (name : CString) (type : VfsType)
  | mkdir (name : CString)
  | unlink (name : CString)
  | finddir (name : CString)

/-- A call: the inode that `ramfs_finddir` found, or `0`; none for `-1` and null. -/
def dirOp (r : RamFs) (dir : ℕ) : DirOp → Option (Option ℕ × RamFs)
  | .create name type => (r.ramfsCreate dir name type).map fun (ok, r) => (if ok then some 0 else none, r)
  | .mkdir name => (r.ramfsMkdir dir name).map fun (ok, r) => (if ok then some 0 else none, r)
  | .unlink name => (r.ramfsUnlink dir name).map fun (ok, r) => (if ok then some 0 else none, r)
  | .finddir name => r.ramfsFinddir dir name

/-- The calls on one directory, which is empty at first.  Between them (`none`) everything else
may change. -/
def dirSystem (start e dir : ℕ) : System RamFs (Option DirOp) where
  init r := (r.inodes dir).type = .dir ∧ (r.inodes dir).children = [] ∧ HoldsDir start e r dir
  step r op r' := match op with
    | none => HoldsDir start e r' dir ∧ (r'.inodes dir).type = (r.inodes dir).type ∧
        (r'.inodes dir).children = (r.inodes dir).children ∧
        ∀ c ∈ (r.inodes dir).children, (r'.inodes c).name = (r.inodes c).name
    | some op => ∃ out, dirOp r dir op = some (out, r')

/-- New names are stored in full, and there is memory for the nodes. -/
def DirOp.Plain (r : RamFs) : DirOp → Prop
  | .create name _ | .mkdir name => name.length < vfsMaxName
  | .unlink _ => True
  | .finddir _ => hasRoom r.heap sizeofVfsNode = true

/-- A call as a step of the map from names to inodes.  A directory that is not empty is not
removed. -/
def MapStep (r : RamFs) (dir : ℕ) (op : DirOp) (out : Option ℕ) (r' : RamFs) : Prop :=
  match op with
  | .create name _ | .mkdir name =>
      out = none ∧ r'.findChild dir = r.findChild dir ∨
      out = some 0 ∧ r.findChild dir name = none ∧ ∃ c, c ∉ (r.inodes dir).children ∧
        r'.findChild dir = Function.update (r.findChild dir) name (some c)
  | .unlink name => match r.findChild dir name with
      | none => out = none ∧ r'.findChild dir = r.findChild dir
      | some c =>
          if (r.inodes c).type = .dir ∧ (r.inodes c).children ≠ [] then
            out = none ∧ r'.findChild dir = r.findChild dir
          else out = some 0 ∧ r'.findChild dir = Function.update (r.findChild dir) name none
  | .finddir name => out = r.findChild dir name ∧ r'.findChild dir = r.findChild dir

/-- What holds between the calls. -/
structure DirMap (r : RamFs) (dir : ℕ) : Prop where
  names : ((r.inodes dir).children.map fun c => (r.inodes c).name).Nodup
  lookup : ∀ name c, r.findChild dir name = some c ↔
    c ∈ (r.inodes dir).children ∧ (r.inodes c).name = name
  listed : ∀ k, (r.ramfsReaddir dir k).isSome ↔ k < (r.inodes dir).children.length
  once : ∀ c ∈ (r.inodes dir).children, ∃! k,
    r.ramfsReaddir dir k = some ((r.inodes c).name, (r.inodes c).type)

/-! ### Lookups -/

/-- A search for a key finds the one element that has it. -/
theorem find?_key_iff {α β : Type} [BEq β] [LawfulBEq β] {f : α → β} {l : List α} (h : (l.map f).Nodup)
    {b : β} {a : α} : (l.find? fun x => f x == b) = some a ↔ a ∈ l ∧ f a = b := by
  induction l with
  | nil => simp
  | cons x l ih =>
      obtain ⟨hx, hl⟩ := List.nodup_cons.1 h
      rw [List.find?_cons]
      by_cases hxb : f x = b
      · rw [beq_iff_eq.2 hxb]
        simp only [Option.some.injEq, List.mem_cons]
        refine ⟨fun h => ⟨Or.inl h.symm, h ▸ hxb⟩, fun ⟨h, hb⟩ => ?_⟩
        rcases h with rfl | h
        · rfl
        · exact absurd (List.mem_map.2 ⟨a, h, hb.trans hxb.symm⟩) hx
      · rw [beq_eq_false_iff_ne.2 hxb, ih hl, List.mem_cons]
        refine and_congr_left fun hb => ⟨Or.inr, fun h => h.resolve_left fun h => hxb (h ▸ hb)⟩

/-- The directory is a map, as long as the names differ. -/
theorem DirMap.of_names (htype : (r.inodes dir).type = .dir)
    (h : ((r.inodes dir).children.map fun c => (r.inodes c).name).Nodup) : DirMap r dir := by
  have hread : ∀ k, r.ramfsReaddir dir k =
      ((r.inodes dir).children[k]?).map fun c => ((r.inodes c).name, (r.inodes c).type) := fun k =>
    if_neg (by simp [htype])
  refine ⟨h, fun _ _ => find?_key_iff h, fun k => by simp [hread], fun c hc => ?_⟩
  obtain ⟨k, hk, rfl⟩ := List.getElem_of_mem hc
  refine ⟨k, by simp [hread, hk], fun j hj => ?_⟩
  -- the names differ, so that one of them is at one index only
  refine ((List.getElem?_inj (by simpa using hk) h).1 ?_).symm
  obtain ⟨c, hc, hname⟩ := Option.map_eq_some_iff.1 ((hread j).symm.trans hj)
  simp only [List.getElem?_map, hc, List.getElem?_eq_getElem hk, Option.map_some]
  rw [(Prod.mk.inj hname).1]

/-! ### One call -/

/-- What the calls keep. -/
structure DirInv (start e : ℕ) (r : RamFs) (dir : ℕ) : Prop where
  type : (r.inodes dir).type = .dir
  names : ((r.inodes dir).children.map fun c => (r.inodes c).name).Nodup
  holds : HoldsDir start e r dir

theorem mem_dirBlocks_of_child {c : ℕ} (h : c ∈ (r.inodes dir).children) : c ∈ dirBlocks r dir :=
  List.mem_cons_of_mem _ (List.mem_flatMap.2 ⟨c, h, List.mem_cons_self⟩)

/-- A new block is none of the directory's. -/
theorem HoldsDir.kmalloc (hr : HeapRange start e) (h : HoldsDir start e r dir) {n : ℕ} (hn : n < 2 ^ 63) :
    ∃ p heap live l, kmalloc r.heap n = some (p, heap) ∧ HeapInv start e ⟨heap, live⟩ l ∧
      (∀ q ∈ dirBlocks r dir, (live q).isSome = true) ∧
      (p ≠ 0 → p ∉ dirBlocks r dir ∧ (live p).isSome = true) := by
  obtain ⟨live, l, hl, -, hlive⟩ := h
  obtain ⟨p, heap, hk, -, l', hl', hnew⟩ := hl.kmalloc_block hr.start_ne hr.lt hr.le hn
  have hfresh : p ≠ 0 → p ∉ dirBlocks r dir := fun hp hq => by
    have := hlive p hq
    rw [show live p = none from (hnew hp).1] at this
    cases this
  refine ⟨p, heap, _, l', hk, hl', fun q hq => ?_, fun hp => ⟨hfresh hp, by simp [hp]⟩⟩
  split_ifs with hp
  · exact hlive q hq
  · have hne : q ≠ p := fun heq => hfresh hp (heq ▸ hq)
    rw [Function.update_of_ne hne]
    exact hlive q hq

/-- A child is added. -/
theorem DirInv.append (h : DirInv start e r dir) {p : ℕ} {name : CString} {live : ℕ → Option ℕ} {l : List Blk}
    (hl : HeapInv start e ⟨r'.heap, live⟩ l) (hlive : ∀ q ∈ dirBlocks r dir ++ [p], (live q).isSome = true)
    (hfresh : p ∉ dirBlocks r dir) (hfound : r.findChild dir name = none)
    (hinode : ∀ c ∈ (r.inodes dir).children, r'.inodes c = r.inodes c)
    (hnew : (r'.inodes p).name = name ∧ (r'.inodes p).data = 0) (htype : (r'.inodes dir).type = .dir)
    (hchildren : (r'.inodes dir).children = (r.inodes dir).children ++ [p]) :
    DirInv start e r' dir ∧ r'.findChild dir = Function.update (r.findChild dir) name (some p) := by
  have habsent : ∀ c ∈ (r.inodes dir).children, (r.inodes c).name ≠ name := fun c hc heq => by
    have := List.find?_eq_none.1 hfound c hc
    simp [heq] at this
  have hnames : ((r'.inodes dir).children.map fun c => (r'.inodes c).name).Nodup := by
    have hmap : (r.inodes dir).children.map (fun c => (r'.inodes c).name) =
        (r.inodes dir).children.map (fun c => (r.inodes c).name) :=
      List.map_congr_left fun c hc => by rw [hinode c hc]
    rw [hchildren, List.map_append, List.map_singleton, hnew.1, hmap]
    refine h.names.append (List.nodup_singleton _) fun n hn hn' => ?_
    obtain ⟨c, hc, rfl⟩ := List.mem_map.1 hn
    exact habsent c hc (List.mem_singleton.1 hn')
  have hblocks : dirBlocks r' dir = dirBlocks r dir ++ [p] := by
    have hflat : (r.inodes dir).children.flatMap (inodeBlocks r') =
        (r.inodes dir).children.flatMap (inodeBlocks r) :=
      List.flatMap_congr fun c hc => by rw [inodeBlocks, hinode c hc, inodeBlocks]
    rw [dirBlocks, hchildren, List.flatMap_append, hflat, dirBlocks, List.cons_append]
    simp [inodeBlocks, hnew.2]
  obtain ⟨-, -, -, hnodup, -⟩ := h.holds
  refine ⟨⟨htype, hnames, live, l, hl, ?_, fun q hq => hlive q (hblocks ▸ hq)⟩, ?_⟩
  · rw [hblocks]
    refine hnodup.append (List.nodup_singleton _) fun q hq hq' => ?_
    exact hfresh (List.mem_singleton.1 hq' ▸ hq)
  -- the new name gives the new child, any other name the child from before
  funext n
  refine Option.ext fun c => ?_
  rw [show r'.findChild dir n = some c ↔ _ from find?_key_iff hnames, hchildren]
  by_cases hn : n = name
  · subst hn
    rw [Function.update_self, Option.some.injEq]
    constructor
    · rintro ⟨hc, hcn⟩
      rcases List.mem_append.1 hc with hc | hc
      · exact absurd (hinode c hc ▸ hcn) (habsent c hc)
      · exact (List.mem_singleton.1 hc).symm
    · rintro rfl
      exact ⟨by simp, hnew.1⟩
  · rw [Function.update_of_ne hn, show r.findChild dir n = some c ↔ _ from find?_key_iff h.names]
    constructor
    · rintro ⟨hc, hcn⟩
      rcases List.mem_append.1 hc with hc | hc
      · exact ⟨hc, hinode c hc ▸ hcn⟩
      · rw [List.mem_singleton.1 hc, hnew.1] at hcn
        exact absurd hcn.symm hn
    · rintro ⟨hc, hcn⟩
      exact ⟨List.mem_append_left _ hc, (hinode c hc).symm ▸ hcn⟩

/-- **`ramfs_create`** of a name that is stored in full fails, or adds it. -/
theorem DirInv.create (hr : HeapRange start e) (h : DirInv start e r dir) {name : CString}
    (hname : name.length < vfsMaxName) (type : VfsType) : ∃ ok r', r.ramfsCreate dir name type = some (ok, r') ∧
      DirInv start e r' dir ∧ (ok = false ∧ r'.findChild dir = r.findChild dir ∨
        ok = true ∧ r.findChild dir name = none ∧ ∃ c, c ∉ (r.inodes dir).children ∧
          r'.findChild dir = Function.update (r.findChild dir) name (some c)) := by
  unfold RamFs.ramfsCreate
  simp only [h.type, ne_eq, not_true_eq_false, if_false]
  by_cases hfull : ramfsMaxChildren ≤ (r.inodes dir).children.length
  · exact ⟨false, r, if_pos hfull, h, Or.inl ⟨rfl, rfl⟩⟩
  rw [if_neg hfull]
  by_cases hfound : (r.findChild dir name).isSome = true
  · exact ⟨false, r, if_pos hfound, h, Or.inl ⟨rfl, rfl⟩⟩
  rw [if_neg hfound]
  obtain ⟨p, heap, live, l, hk, hl, hlive, hnew⟩ := h.holds.kmalloc hr (n := sizeofRamfsInode) (by decide)
  obtain ⟨-, -, -, hnodup, -⟩ := h.holds
  rw [RamFs.ramfsAllocInode, hk]
  by_cases hp : p = 0
  · -- there is no memory
    simp only [Option.map_some, if_pos hp]
    exact ⟨false, _, rfl, ⟨h.type, h.names, live, l, hl, hnodup, hlive⟩, Or.inl ⟨rfl, rfl⟩⟩
  simp only [Option.map_some, if_neg hp]
  obtain ⟨hfresh, hplive⟩ := hnew hp
  replace hfound : r.findChild dir name = none := by simpa using hfound
  have hdir : dir ≠ p := fun heq => hfresh (heq ▸ List.mem_cons_self)
  have htake : name.take (vfsMaxName - 1) = name := List.take_of_length_le (by omega)
  refine ⟨true, _, rfl, (h.append hl ?_ hfresh hfound ?_ ?_ ?_ ?_).imp id fun hmap =>
    Or.inr ⟨rfl, hfound, p, fun hc => hfresh (mem_dirBlocks_of_child hc), hmap⟩⟩
  · intro q hq
    rcases List.mem_append.1 hq with hq | hq
    · exact hlive q hq
    · exact List.mem_singleton.1 hq ▸ hplive
  · intro c hc
    have hself : c ≠ dir := fun heq =>
      (List.nodup_cons.1 hnodup).1 (List.mem_flatMap.2 ⟨c, hc, heq ▸ List.mem_cons_self⟩)
    have hother : c ≠ p := fun heq => hfresh (heq ▸ mem_dirBlocks_of_child hc)
    simp only [RamFs.setInode, Function.update_of_ne hself, Function.update_of_ne hother]
  · simp only [RamFs.setInode, Function.update_of_ne hdir.symm, Function.update_self, htake, and_self]
  · simp only [RamFs.setInode, Function.update_of_ne hdir, Function.update_self, h.type]
  · simp only [RamFs.setInode, Function.update_of_ne hdir, Function.update_self]

/-- A child is removed. -/
theorem DirInv.remove (h : DirInv start e r dir) {c : ℕ} {name : CString} {as bs : List ℕ}
    {live : ℕ → Option ℕ} {l : List Blk} (hold : (r.inodes dir).children = as ++ c :: bs)
    (hname : (r.inodes c).name = name) (hl : HeapInv start e ⟨r'.heap, live⟩ l)
    (hlive : ∀ q ∈ dir :: (as ++ bs).flatMap (inodeBlocks r), (live q).isSome = true)
    (hinode : ∀ a ∈ as ++ bs, r'.inodes a = r.inodes a) (htype : (r'.inodes dir).type = .dir)
    (hchildren : (r'.inodes dir).children = as ++ bs) :
    DirInv start e r' dir ∧ r'.findChild dir = Function.update (r.findChild dir) name none := by
  have hsub : (as ++ bs).Sublist (r.inodes dir).children := by
    rw [hold]
    exact (List.sublist_cons_self c bs).append_left as
  have hmap : (as ++ bs).map (fun c => (r'.inodes c).name) = (as ++ bs).map fun c => (r.inodes c).name :=
    List.map_congr_left fun a ha => by rw [hinode a ha]
  have hnames : ((r'.inodes dir).children.map fun c => (r'.inodes c).name).Nodup := by
    rw [hchildren, hmap]
    exact h.names.sublist (hsub.map _)
  have hblocks : dirBlocks r' dir = dir :: (as ++ bs).flatMap (inodeBlocks r) := by
    rw [dirBlocks, hchildren, List.flatMap_congr fun a ha => by rw [inodeBlocks, hinode a ha, ← inodeBlocks]]
  have hother : ∀ a ∈ as ++ bs, (r.inodes a).name ≠ name := fun a ha heq => by
    have hnodup := h.names
    rw [hold, List.map_append, List.map_cons, List.nodup_middle, List.nodup_cons, hname] at hnodup
    rw [← List.map_append] at hnodup
    exact hnodup.1 (List.mem_map.2 ⟨a, ha, heq⟩)
  obtain ⟨-, -, -, hnodup, -⟩ := h.holds
  refine ⟨⟨htype, hnames, live, l, hl, ?_, fun q hq => hlive q (hblocks ▸ hq)⟩, ?_⟩
  · rw [hblocks]
    exact hnodup.sublist ((hsub.flatMap _).cons_cons dir)
  -- the name gives nothing any more, any other name the child from before
  funext n
  refine Option.ext fun a => ?_
  rw [show r'.findChild dir n = some a ↔ _ from find?_key_iff hnames, hchildren]
  by_cases hn : n = name
  · subst hn
    rw [Function.update_self]
    refine ⟨fun ⟨ha, han⟩ => absurd (hinode a ha ▸ han) (hother a ha), fun h => by cases h⟩
  · rw [Function.update_of_ne hn, show r.findChild dir n = some a ↔ _ from find?_key_iff h.names]
    refine ⟨fun ⟨ha, han⟩ => ⟨hsub.subset ha, hinode a ha ▸ han⟩, fun ⟨ha, han⟩ => ?_⟩
    have ha' : a ∈ as ++ bs := by
      rw [hold] at ha
      simp only [List.mem_append, List.mem_cons] at ha ⊢
      rcases ha with ha | rfl | ha
      · exact Or.inl ha
      · exact absurd (han.symm.trans hname) hn
      · exact Or.inr ha
    exact ⟨ha', (hinode a ha').symm ▸ han⟩

/-- An inode and its buffer are freed. -/
theorem freeInode (hr : HeapRange start e) {live : ℕ → Option ℕ} {l : List Blk}
    (hl : HeapInv start e ⟨r.heap, live⟩ l) {c : ℕ} (hnodup : (inodeBlocks r c).Nodup)
    (hlive : ∀ p ∈ inodeBlocks r c, (live p).isSome = true) : ∃ heap live' l',
      (∀ f : Heap → Option (Bool × RamFs), (if (r.inodes c).data = 0 then (kfree r.heap c).bind f
        else (kfree r.heap (r.inodes c).data).bind fun heap => (kfree heap c).bind f) = f heap) ∧
      HeapInv start e ⟨heap, live'⟩ l' ∧ ∀ q ∉ inodeBlocks r c, live' q = live q := by
  unfold inodeBlocks at *
  by_cases hdata : (r.inodes c).data = 0
  · simp only [if_pos hdata] at *
    obtain ⟨heap, hk, l', hl', -⟩ := hl.kfree_block hr.start_ne hr.le (hlive c (by simp))
    exact ⟨heap, _, l', fun f => by rw [hk, Option.bind_some], hl',
      fun q hq => Function.update_of_ne (by simpa using hq) ..⟩
  · simp only [if_neg hdata] at *
    have hne : c ≠ (r.inodes c).data := by simpa using hnodup
    obtain ⟨heap, hk, l₁, hl₁, -⟩ := hl.kfree_block hr.start_ne hr.le (hlive (r.inodes c).data (by simp))
    have hc : (Function.update live (r.inodes c).data none c).isSome = true := by
      rw [Function.update_of_ne hne]
      exact hlive c (by simp)
    obtain ⟨heap', hk', l', hl', -⟩ := hl₁.kfree_block hr.start_ne hr.le hc
    refine ⟨heap', _, l', fun f => by rw [hk, Option.bind_some, hk', Option.bind_some], hl', fun q hq => ?_⟩
    simp only [List.mem_cons, List.not_mem_nil, or_false, not_or] at hq
    exact (Function.update_of_ne hq.1 ..).trans (Function.update_of_ne hq.2 ..)

/-- **`ramfs_unlink`** removes the name, where it is there and not that of a directory with
something in it. -/
theorem DirInv.unlink (hr : HeapRange start e) (h : DirInv start e r dir) (name : CString) :
    ∃ ok r', r.ramfsUnlink dir name = some (ok, r') ∧ DirInv start e r' dir ∧
      MapStep r dir (.unlink name) (if ok then some 0 else none) r' := by
  unfold RamFs.ramfsUnlink
  simp only [h.type, ne_eq, not_true_eq_false, if_false, MapStep]
  cases hfound : r.findChild dir name with
  | none => exact ⟨false, r, rfl, h, rfl, rfl⟩
  | some c =>
  simp only
  by_cases hfull : (r.inodes c).type = .dir ∧ (r.inodes c).children ≠ []
  · simp only [if_pos hfull]
    exact ⟨false, r, rfl, h, rfl, rfl⟩
  simp only [if_neg hfull]
  obtain ⟨hname, as, bs, hchildren, hbefore⟩ := List.find?_eq_some_iff_append.1 hfound
  obtain ⟨live, l, hl, hnodup, hlive⟩ := h.holds
  -- the blocks that are freed, and the others
  have hblocks : (dirBlocks r dir).Perm (inodeBlocks r c ++ (dir :: (as ++ bs).flatMap (inodeBlocks r))) := by
    rw [dirBlocks, hchildren, List.flatMap_append, List.flatMap_cons, List.flatMap_append]
    refine (List.Perm.cons dir ?_).trans List.perm_middle.symm
    rw [← List.append_assoc, ← List.append_assoc]
    exact List.perm_append_comm.append_right _
  rw [hblocks.nodup_iff] at hnodup
  replace hlive : ∀ p ∈ _, (live p).isSome = true := fun p hp => hlive p (hblocks.mem_iff.2 hp)
  obtain ⟨heap, live', l', hfree, hl', hsame⟩ := freeInode hr hl hnodup.of_append_left
    fun p hp => hlive p (List.mem_append_left _ hp)
  simp only [Option.bind_eq_bind, Option.bind_some, hfree]
  have herase : (r.inodes dir).children.eraseIdx
      ((r.inodes dir).children.findIdx fun c => (r.inodes c).name == name) = as ++ bs := by
    have hidx : as.findIdx (fun c => (r.inodes c).name == name) = as.length :=
      List.findIdx_eq_length.2 fun a ha => by simpa using hbefore a ha
    rw [hchildren, List.findIdx_append, hidx, if_neg (lt_irrefl _), List.findIdx_cons, hname,
      List.eraseIdx_append_of_length_le (by simp)]
    simp
  have hself : ∀ a ∈ as ++ bs, a ≠ dir := fun a ha heq =>
    (List.nodup_cons.1 hnodup.of_append_right).1 (List.mem_flatMap.2 ⟨a, ha, heq ▸ List.mem_cons_self⟩)
  refine ⟨true, _, rfl, (h.remove hchildren (by simpa using hname) hl' ?_ ?_ ?_ ?_).imp id fun hmap => ⟨rfl, hmap⟩⟩
  · intro q hq
    rw [hsame q fun hq' => (List.disjoint_of_nodup_append hnodup) hq' hq]
    exact hlive q (List.mem_append_right _ hq)
  · exact fun a ha => Function.update_of_ne (hself a ha) ..
  · simp only [RamFs.setInode, Function.update_self, h.type]
  · simp only [RamFs.setInode, Function.update_self, herase]

/-- **Each call** returns, keeps the invariant and is a step of the map. -/
theorem DirInv.dirOp (hr : HeapRange start e) (h : DirInv start e r dir) {op : DirOp} (hop : op.Plain r) :
    ∃ out r', dirOp r dir op = some (out, r') ∧ DirInv start e r' dir ∧ MapStep r dir op out r' := by
  have hcreate : ∀ name type, name.length < vfsMaxName → ∃ out r',
      LighthOS.dirOp r dir (.create name type) = some (out, r') ∧ DirInv start e r' dir ∧
        MapStep r dir (.mkdir name) out r' := by
    intro name type hname
    obtain ⟨ok, r', hc, hinv, hmap⟩ := h.create hr hname type
    refine ⟨_, r', by rw [LighthOS.dirOp, hc]; rfl, hinv, ?_⟩
    rcases hmap with ⟨rfl, hmap⟩ | ⟨rfl, hmap⟩
    · exact Or.inl ⟨rfl, hmap⟩
    · exact Or.inr ⟨rfl, hmap⟩
  cases op with
  | create name type => exact hcreate name type hop
  | mkdir name => exact hcreate name .dir hop
  | unlink name =>
      obtain ⟨ok, r', hu, hinv, hmap⟩ := h.unlink hr name
      exact ⟨_, r', by rw [LighthOS.dirOp, hu]; rfl, hinv, hmap⟩
  | finddir name =>
      obtain ⟨p, heap, live, l, hk, hl, hlive, -⟩ := h.holds.kmalloc hr (n := sizeofVfsNode) (by decide)
      have hp : p ≠ 0 := by simpa [DirOp.Plain, hasRoom, hk] using hop
      rw [LighthOS.dirOp, RamFs.ramfsFinddir, if_neg (by simp [h.type])]
      cases hfound : r.findChild dir name with
      | none => exact ⟨none, r, rfl, h, hfound.symm, rfl⟩
      | some c =>
          obtain ⟨-, -, -, hnodup, -⟩ := h.holds
          refine ⟨some c, { r with heap := heap }, ?_, ⟨h.type, h.names, live, l, hl, hnodup, hlive⟩, hfound.symm, rfl⟩
          simp [RamFs.inodeToVfsNode, hk, hp]

/-- **A directory is a map from names to inodes.**  In every run of calls with names that are
stored in full, and with memory for the nodes, the names differ, the lookup is a map and
`ramfs_readdir` lists each child once; and each further such call returns and is a step of the
map. -/
theorem ramfs_dir_map (hr : HeapRange start e)
    (hx : ((dirSystem start e dir).restrict fun r op => ∀ o ∈ op, o.Plain r).Reaches r) :
    DirMap r dir ∧ ∀ op : DirOp, op.Plain r → ∃ out r', dirOp r dir op = some (out, r') ∧
      MapStep r dir op out r' := by
  have hinv : DirInv start e r dir := by
    refine hx.invariant (I := fun r => DirInv start e r dir) (fun r hr => ⟨hr.1, ?_, hr.2.2⟩)
      fun r op r' h hs => ?_
    · rw [hr.2.1]
      exact List.nodup_nil
    · obtain ⟨hplain, hs⟩ := hs
      cases op with
      | none =>
          obtain ⟨hholds, htype, hchildren, hnames⟩ := hs
          refine ⟨htype.trans h.type, ?_, hholds⟩
          rw [hchildren, List.map_congr_left hnames]
          exact h.names
      | some op =>
          obtain ⟨out, hs⟩ := hs
          obtain ⟨out', r₁, hs', hinv, -⟩ := h.dirOp hr (hplain op rfl)
          obtain ⟨-, rfl⟩ := Prod.mk.inj (Option.some.inj (hs.symm.trans hs'))
          exact hinv
  refine ⟨DirMap.of_names hinv.type hinv.names, fun op hop => ?_⟩
  obtain ⟨out, r', h, -, hmap⟩ := hinv.dirOp hr hop
  exact ⟨out, r', h, hmap⟩

/-- An empty directory, which is a block on a heap of 16 KiB. -/
def emptyDir : RamFs :=
  { emptyRam 16384 with
    heap := ⟨takeBlock (emptyRam 16384).heap.mem 2160 0x1000, 0x1000⟩
    inodes := fun _ => ⟨[], .dir, 0, 0, 0, 0, []⟩ }

/-- The hypotheses of `ramfs_dir_map` are satisfiable: a name in an empty directory. -/
theorem ramfs_dir_map_create : ∃ out r', dirOp emptyDir 0x1020 (.create ['a'] .file) = some (out, r') ∧
    MapStep emptyDir 0x1020 (.create ['a'] .file) out r' := by
  have hinv : HeapInv 0x1000 (0x1000 + 16384) ⟨heapInit (fun _ => 0) 0x1000 16384, fun _ => none⟩ _ :=
    HeapInv.init _ (by decide) (by decide) (by decide)
  obtain ⟨p, heap, hk, -, l, hl, -⟩ := hinv.kmalloc_block (by decide) (by decide) (by decide)
    (show sizeofRamfsInode < 2 ^ 63 by decide)
  have hk' : kmalloc (heapInit (fun _ => 0) 0x1000 16384) sizeofRamfsInode = some (0x1020, emptyDir.heap) := by
    rfl
  obtain ⟨rfl, rfl⟩ := Prod.mk.inj (Option.some.inj (hk.symm.trans hk'))
  have hx : ((dirSystem 0x1000 (0x1000 + 16384) 0x1020).restrict fun r op => ∀ o ∈ op, o.Plain r).Reaches
      emptyDir := .init ⟨rfl, rfl, _, l, hl, by decide, by decide⟩
  exact (ramfs_dir_map ⟨by decide, by decide, by decide⟩ hx).2 _ (show 1 < vfsMaxName by decide)

/-- **A long name is made twice and never found:** both files have the name of 63 characters. -/
theorem ramfs_longName_twice : ∃ r₁ r₂, dirOp emptyDir 0x1020 (.create (List.replicate 64 'a') .file) = some (some 0, r₁) ∧
    r₁.findChild 0x1020 (List.replicate 64 'a') = none ∧
    dirOp r₁ 0x1020 (.create (List.replicate 64 'a') .file) = some (some 0, r₂) ∧
    ((r₂.inodes 0x1020).children.map fun c => (r₂.inodes c).name) =
      [List.replicate 63 'a', List.replicate 63 'a'] := by
  have hrun : ((dirOp emptyDir 0x1020 (.create (List.replicate 64 'a') .file)).any fun x => x.1 == some 0 &&
      (x.2.findChild 0x1020 (List.replicate 64 'a')).isNone &&
      (dirOp x.2 0x1020 (.create (List.replicate 64 'a') .file)).any fun y => y.1 == some 0 &&
        ((y.2.inodes 0x1020).children.map fun c => (y.2.inodes c).name) ==
          [List.replicate 63 'a', List.replicate 63 'a']) = true := by decide +kernel
  obtain ⟨⟨out₁, r₁⟩, h₁, hrun⟩ := (Option.any_eq_true _ _).1 hrun
  rw [Bool.and_eq_true, Bool.and_eq_true] at hrun
  obtain ⟨⟨hout₁, hnone⟩, hrun⟩ := hrun
  obtain ⟨⟨out₂, r₂⟩, h₂, hrun⟩ := (Option.any_eq_true _ _).1 hrun
  rw [Bool.and_eq_true] at hrun
  obtain ⟨hout₂, hnames⟩ := hrun
  obtain rfl : out₁ = some 0 := by simpa using hout₁
  obtain rfl : out₂ = some 0 := by simpa using hout₂
  exact ⟨r₁, r₂, h₁, by simpa using hnone, h₂, by simpa using hnames⟩

end LighthOS
