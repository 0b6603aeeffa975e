/-
# Cluster ownership over whole runs

A volume is used through the nodes of its directories: the root, or nodes that
`fat_finddir` returned with the type of a directory.  Files are written through the node
that a lookup has just returned.

`ClusterOwnership` says, of the directories that are reachable from the root, that the
chains of their entries share no cluster.  It holds in every state that a run of such
calls reaches from an empty volume (`clusterOwnership_of_reaches`), as long as no call is made
on the node of a directory that was removed, and the node of a file that is written knows its
directory (`freshCall`); calls that run out of clusters on their way are part of the runs.
Without either it is lost (`clusterOwnership_lost`).  Directories that lose their parent are not
reachable any more but stay owned, which is why the invariant of the run is
`FatState.Volume` with a set of directories of its own.
-/

import LighthOS.Fs.FatOps
import LighthOS.Lib.System

namespace LighthOS

namespace FatState

/-- The directories that are reachable from the root. -/
inductive ReachDir (G : FatState) (d : Disk) : ℕ → Prop
  | root : ReachDir G d G.rootDir
  | sub {p : ℕ} {s : Slot} (hp : ReachDir G d p) (hs : s ∈ G.children d p) (hdir : s.raw.isDir = true) :
      ReachDir G d s.raw.firstCluster

/-- **Cluster ownership.**  The chains that start at the first clusters of the entries, and at
the root cluster of FAT32, are finite lists of clusters of the volume whose entries in the
table are not `0` (`IsChain`), and share no cluster. -/
structure ClusterOwnership (G : FatState) (d : Disk) : Prop where
  chain : ∀ p, ReachDir G d p → ∀ s ∈ G.children d p, s.raw.firstCluster ≠ 0 →
    ∃ l, G.IsChain d s.raw.firstCluster l
  root : G.isFat32 = true → ∃ l, G.IsChain d G.rootCluster l
  apart : ∀ p q, ReachDir G d p → ReachDir G d q → ∀ s ∈ G.children d p, ∀ t ∈ G.children d q, s ≠ t →
    ∀ k l, G.IsChain d s.raw.firstCluster k → G.IsChain d t.raw.firstCluster l → k.Disjoint l
  rootApart : G.isFat32 = true → ∀ p, ReachDir G d p → ∀ s ∈ G.children d p,
    ∀ k l, G.IsChain d G.rootCluster k → G.IsChain d s.raw.firstCluster l → k.Disjoint l

variable {G : FatState} {d : Disk} {D X : Set ℕ} {p c : ℕ}

theorem rootDir_eq (G : FatState) : G.rootDir = if G.isFat32 then G.rootCluster else 0 := rfl

theorem rootDir_of_ne (h : G.rootDir ≠ 0) : G.isFat32 = true ∧ G.rootDir = G.rootCluster := by
  rw [rootDir_eq] at h ⊢
  cases h32 : G.isFat32 with
  | true => exact ⟨rfl, rfl⟩
  | false =>
      rw [h32] at h
      exact absurd rfl h

theorem Owned.reachDir (ho : Owned G d D X) (hp : ReachDir G d p) : p ∈ D := by
  induction hp with
  | root => exact ho.root
  | sub _ hs hdir ih => exact ho.sub _ ih _ hs hdir

/-- A volume with an owner for every chain. -/
theorem Owned.clusterOwnership (ho : Owned G d D X) (hzero : G.isFat32 = true → 0 ∉ D) : ClusterOwnership G d := by
  have hhead : ∀ p, ReachDir G d p → ∀ s ∈ G.children d p, s.raw.firstCluster ≠ 0 →
      s.raw.firstCluster ∈ G.heads d D ∪ X := fun p hp s hs h₀ => Or.inl ⟨h₀, Or.inr ⟨p, ho.reachDir hp, s, hs, rfl⟩⟩
  have hroot : G.isFat32 = true → G.rootCluster = G.rootDir ∧ G.rootDir ∈ G.heads d D ∪ X := by
    intro h32
    have hr : G.rootDir = G.rootCluster := by rw [rootDir_eq, h32, if_pos rfl]
    exact ⟨hr.symm, Or.inl ⟨fun h₀ => hzero h32 (h₀ ▸ ho.root), Or.inl ho.root⟩⟩
  refine ⟨fun p hp s hs h₀ => ho.chains.chain _ (hhead p hp s hs h₀), fun h32 => ?_, fun p q hp hq s hs t ht hst k l hk hl => ?_,
    fun h32 p hp s hs k l hk hl => ?_⟩
  · obtain ⟨hr, hmem⟩ := hroot h32
    rw [hr]
    exact ho.chains.chain _ hmem
  · refine ho.chains.apart _ (hhead p hp s hs (IsChain.ne_zero hk)) _ (hhead q hq t ht (IsChain.ne_zero hl)) ?_ k l hk hl
    exact fun heq => hst (ho.once p (ho.reachDir hp) q (ho.reachDir hq) s hs t ht heq (IsChain.ne_zero hk))
  · obtain ⟨hr, hmem⟩ := hroot h32
    rw [hr] at hk
    refine ho.chains.apart _ hmem _ (hhead p hp s hs (IsChain.ne_zero hl)) ?_ k l hk hl
    exact fun heq => IsChain.ne_zero hl (ho.rootOnce p (ho.reachDir hp) s hs heq.symm)

/-- The reachable directories of a volume with cluster ownership are owned. -/
theorem ClusterOwnership.owned (hc : ClusterOwnership G d) : Owned G d {p | ReachDir G d p} ∅ := by
  -- what two entries share
  have hshare : ∀ p q, ReachDir G d p → ReachDir G d q → ∀ s ∈ G.children d p, ∀ t ∈ G.children d q,
      s.raw.firstCluster = t.raw.firstCluster → s.raw.firstCluster ≠ 0 → s = t := by
    intro p q hp hq s hs t ht heq h₀
    by_contra hne
    obtain ⟨l, hl⟩ := hc.chain p hp s hs h₀
    exact hc.apart p q hp hq s hs t ht hne l l hl (heq ▸ hl) hl.head_mem hl.head_mem
  have hrootOnce : ∀ p, ReachDir G d p → ∀ s ∈ G.children d p, s.raw.firstCluster = G.rootDir →
      s.raw.firstCluster = 0 := by
    intro p hp s hs heq
    by_contra h₀
    obtain ⟨h32, hr⟩ := rootDir_of_ne (heq ▸ h₀)
    obtain ⟨l, hl⟩ := hc.root h32
    have hl' : G.IsChain d s.raw.firstCluster l := by rwa [heq, hr]
    exact hc.rootApart h32 p hp s hs l l hl hl' hl.head_mem hl.head_mem
  -- the heads are the root and the first clusters of entries
  have hheads : ∀ c ∈ G.heads d {p | ReachDir G d p} ∪ ∅, c ≠ 0 ∧ (c = G.rootDir ∧ G.isFat32 = true ∧ c = G.rootCluster ∨
      ∃ p, ReachDir G d p ∧ ∃ s ∈ G.children d p, s.raw.firstCluster = c) := by
    rintro c (⟨h₀, hc | ⟨p, hp, s, hs, rfl⟩⟩ | hc)
    · refine ⟨h₀, ?_⟩
      cases hc with
      | root =>
          obtain ⟨h32, hr⟩ := rootDir_of_ne h₀
          exact Or.inl ⟨rfl, h32, hr⟩
      | sub hp hs _ => exact Or.inr ⟨_, hp, _, hs, rfl⟩
    · exact ⟨h₀, Or.inr ⟨p, hp, s, hs, rfl⟩⟩
    · cases hc
  refine ⟨.root, fun p hp s hs hdir => .sub hp hs hdir, fun p hp s hs hdir => ?_, fun p hp q hq => hshare p q hp hq,
    hrootOnce, fun x hx => absurd hx (Set.notMem_empty x), ⟨fun c hmem => ?_, fun a ha b hb hab k l hk hl => ?_⟩⟩
  · by_cases h₀ : s.raw.firstCluster = 0
    · exact Or.inl h₀
    · refine Or.inr fun hreach => ?_
      generalize hf : s.raw.firstCluster = f at hreach
      cases hreach with
      | root => exact h₀ (hrootOnce p hp s hs hf)
      | sub hq ht htdir =>
          obtain rfl := hshare p _ hp hq s hs _ ht hf h₀
          rw [hdir] at htdir
          cases htdir
  · obtain ⟨h₀, ⟨-, h32, rfl⟩ | ⟨p, hp, s, hs, rfl⟩⟩ := hheads c hmem
    · exact hc.root h32
    · exact hc.chain p hp s hs h₀
  · obtain ⟨-, ⟨hra, ha32, rfl⟩ | ⟨p, hp, s, hs, rfl⟩⟩ := hheads a ha <;>
      obtain ⟨-, ⟨hrb, hb32, rfl⟩ | ⟨q, hq, t, ht, rfl⟩⟩ := hheads b hb
    · exact absurd rfl hab
    · exact hc.rootApart ha32 q hq t ht k l hk hl
    · exact (hc.rootApart hb32 p hp s hs l k hl hk).symm
    · exact hc.apart p q hp hq s hs t ht (fun he => hab (he ▸ rfl)) k l hk hl

/-! ### Empty volumes -/

/-- An empty volume: the clusters are free but for those of the root directory of FAT32, and the
sectors of the root directory are zero. -/
structure EmptyVolume (G : FatState) (d : Disk) : Prop where
  rootSectors : ∀ lba ∈ G.dirLbas d G.rootDir, d lba = zeroSector
  rootChain : G.isFat32 = true → ∃ l, G.IsChain d G.rootCluster l ∧ ∀ x, G.Valid x → x ∉ l → G.entryAt d x = 0
  free : G.isFat32 = false → ∀ x, G.Valid x → G.entryAt d x = 0

theorem EmptyVolume.volume (he : EmptyVolume G d) : Volume G d {G.rootDir} ∅ := by
  have hzero : ∀ s ∈ G.dirSlots d G.rootDir, s.raw = fun _ => 0 := by
    intro s hs
    obtain ⟨hlba, -, hraw⟩ := mem_dirSlots.1 hs
    rw [hraw, he.rootSectors _ hlba, slot_zeroSector]
  have htidy : TidyDir (G.dirSlots d G.rootDir) := by
    have hnil : TidyDir [] := ⟨by simp, List.Pairwise.nil⟩
    exact hnil.append hzero
  have hnone : G.children d G.rootDir = [] := by
    rw [children_eq htidy, List.filter_eq_nil_iff]
    intro s hs
    rw [hzero s hs]
    exact Bool.false_ne_true
  have hdots : G.dots d G.rootDir = [] := by
    rw [dots_eq htidy, List.filter_eq_nil_iff]
    intro s hs
    rw [hzero s hs]
    exact Bool.false_ne_true
  have hkids : ∀ p ∈ ({G.rootDir} : Set ℕ), ∀ s, s ∉ G.children d p := by
    rintro p rfl s hs
    rw [hnone] at hs
    cases hs
  have hhead : ∀ c ∈ G.heads d {G.rootDir} ∪ ∅, c = G.rootCluster ∧ G.isFat32 = true := by
    rintro c (⟨h₀, rfl | ⟨p, hp, s, hs, -⟩⟩ | hc)
    · obtain ⟨h32, hr⟩ := rootDir_of_ne h₀
      exact ⟨hr, h32⟩
    · exact absurd hs (hkids p hp s)
    · cases hc
  refine ⟨⟨rfl, fun p hp s hs => absurd hs (hkids p hp s), fun p hp s hs => absurd hs (hkids p hp s),
    fun p hp q hq s hs => absurd hs (hkids p hp s), fun p hp s hs => absurd hs (hkids p hp s),
    fun x hx => absurd hx (Set.notMem_empty x), ⟨fun c hc => ?_, fun a ha b hb hab => ?_⟩⟩, ?_, ?_, fun h32 h₀ => ?_, ?_,
    fun p hp s hs => absurd hs (hkids p hp s)⟩
  · obtain ⟨rfl, h32⟩ := hhead c hc
    obtain ⟨l, hl, -⟩ := he.rootChain h32
    exact ⟨l, hl⟩
  · exact absurd ((hhead a ha).1.trans (hhead b hb).1.symm) hab
  · rintro p rfl
    exact htidy
  · rintro p rfl
    rw [hnone]
    exact List.Pairwise.nil
  · obtain ⟨l, hl, -⟩ := he.rootChain h32
    refine IsChain.ne_zero hl ?_
    have h₀ : 0 = G.rootDir := h₀
    rw [rootDir_eq, h32, if_pos rfl] at h₀
    exact h₀.symm
  · rintro p rfl
    rw [hdots, if_pos rfl]
    rfl

end FatState

open FatState

/-! ### Runs -/

/-- The driver, the inodes of the directories whose nodes were returned, and those of them that
have not been removed. -/
structure VolState where
  mem : FatMem Disk
  nodes : List ℕ
  held : List ℕ

/-- The calls.  A write looks its file up first; `room` is what the `kmalloc`s of a lookup answer. -/
inductive VolCall where
  | finddir (dir : ℕ) (name : Bytes) (room : Option Bool)
  | create (dir : ℕ) (name : Bytes) (type : VfsType)
  | unlink (dir : ℕ) (name : Bytes)
  | write (dir : ℕ) (name : Bytes) (room : Option Bool) (buf : ℕ → UInt8) (size offset : ℕ)

/-- The directory that a call is made on. -/
def VolCall.dir : VolCall → ℕ
  | finddir p _ _ => p
  | create p _ _ => p
  | unlink p _ => p
  | write p _ _ _ _ _ => p

/-- The inode of a node of a directory. -/
def dirInode (node : Option FatNode) : Option ℕ :=
  (node.filter fun n => decide (n.type = .dir)).map (·.inode)

/-- A call on one of the nodes, with `fuel` rounds for its loops. -/
def volCall (G : FatState) (st : VolState) (fuel : ℕ) (call : VolCall) : Option VolState :=
  if call.dir ∈ st.nodes then
    match call with
    | .finddir p name room => do
        let (node, m) ← fatFinddir Disk.dev G room p name st.mem
        some ⟨m, (dirInode node).toList ++ st.nodes, (dirInode node).toList ++ st.held⟩
    | .create p name type => do
        let (_, m) ← fatCreate Disk.dev G fuel p name type st.mem
        some { st with mem := m }
    | .unlink p name => do
        let (_, m) ← fatUnlink Disk.dev G fuel p name st.mem
        -- the directory of the entry that is deleted is removed
        some ⟨m, st.nodes, st.held.filter fun q => (G.keyed st.mem p name).all fun e =>
          !(e.raw.isDir && e.raw.firstCluster == q)⟩
    | .write p name room buf size offset => do
        let (node, m) ← fatFinddir Disk.dev G room p name st.mem
        match node with
        | none => none
        | some node =>
            if node.type = .file then do
              let (_, _, m) ← fatWrite Disk.dev G fuel node buf size offset m
              some { st with mem := m }
            else none
  else none

/-- A call on a directory that has not been removed; the node of a file that is written has its context. -/
def freshCall (st : VolState) (call : VolCall) : Bool :=
  decide (call.dir ∈ st.held) && match call with
    | .write _ _ room _ _ _ => room != some false
    | _ => true

/-- The runs from an empty volume of the calls that `ok` admits. -/
def volSystem (G : FatState) (ok : VolState → VolCall → Bool) : System VolState (ℕ × VolCall) :=
  .ofFun (fun st => EmptyVolume G st.mem.dev ∧ st.nodes = [G.rootDir] ∧ st.held = [G.rootDir])
    fun st a => if ok st a.2 then volCall G st a.1 a.2 else none

/-- The invariant of the runs: a volume with the directories that may be used. -/
def VolInv (G : FatState) (st : VolState) : Prop :=
  ∃ D X, Volume G st.mem.dev D X ∧ ∀ q ∈ st.held, q ∈ D

section

variable {G : FatState} {st st' : VolState} {m m' : FatMem Disk} {D X : Set ℕ} {p : ℕ} {name : Bytes}

/-- What `fat_finddir` returns on a volume: the node of the entry with the key. -/
theorem fatFinddir_volume (hv : Volume G m.dev D X) (hp : p ∈ D) {node : Option FatNode} {room : Option Bool}
    (hf : fatFinddir Disk.dev G room p name m = some (node, m')) :
    m'.dev = m.dev ∧ node = (G.keyed m p name).bind fun x => room.map fun ctx => nodeOf ctx p name x.raw := by
  obtain ⟨l, heq⟩ := fatFinddir_eq (G := G) room p name m
  rw [heq, lookup_eq_keyed (hv.tidy p hp)] at hf
  obtain ⟨rfl, rfl⟩ := Prod.mk.inj (Option.some.inj hf)
  exact ⟨rfl, rfl⟩

theorem type_eq_dir {e : Dirent} : e.type = .dir ↔ e.isDir = true := by
  unfold Dirent.type
  split_ifs with h <;> simp [h]

theorem mem_dirInode {node : Option FatNode} {q : ℕ} :
    dirInode node = some q ↔ ∃ n, node = some n ∧ n.type = .dir ∧ n.inode = q := by
  unfold dirInode
  rw [Option.map_eq_some_iff]
  simp only [Option.filter_eq_some_iff, decide_eq_true_eq]
  exact exists_congr fun n => and_assoc

/-- **A lookup** adds a directory of the volume. -/
theorem VolInv.finddir {room : Option Bool} {node : Option FatNode} (hv : Volume G st.mem.dev D X)
    (hheld : ∀ q ∈ st.held, q ∈ D) (hp : p ∈ D)
    (hf : fatFinddir Disk.dev G room p name st.mem = some (node, m)) :
    VolInv G ⟨m, (dirInode node).toList ++ st.nodes, (dirInode node).toList ++ st.held⟩ := by
  obtain ⟨hd, hnode⟩ := fatFinddir_volume hv hp hf
  refine ⟨D, X, by rw [hd]; exact hv, fun q hq => ?_⟩
  rcases List.mem_append.1 hq with hq | hq
  · obtain ⟨n, hn, htype, rfl⟩ := mem_dirInode.1 (Option.mem_toList.1 hq)
    obtain ⟨x, hx, hctx⟩ := Option.bind_eq_some_iff.1 (hnode.symm.trans hn)
    obtain ⟨ctx, -, rfl⟩ := Option.map_eq_some_iff.1 hctx
    exact hv.sub p hp _ (keyed_toSlot hx).1 (type_eq_dir.1 htype)
  · exact hheld q hq

/-- **A deletion** removes the directory of the entry. -/
theorem VolInv.unlink (hG : GeoOk G) {fuel : ℕ} {r : ℤ} (hv : Volume G st.mem.dev D X)
    (hheld : ∀ q ∈ st.held, q ∈ D) (hp : p ∈ D) (hf : fatUnlink Disk.dev G fuel p name st.mem = some (r, m)) :
    VolInv G ⟨m, st.nodes, st.held.filter fun q => (G.keyed st.mem p name).all fun e =>
      !(e.raw.isDir && e.raw.firstCluster == q)⟩ := by
  rcases fatUnlink_spec hG hv hp hf with ⟨-, hd, -⟩ | ⟨-, x, ca, cb, hx, -, hvol, -⟩
  · exact ⟨D, X, by rw [hd]; exact hv, fun q hq => hheld q (List.mem_of_mem_filter hq)⟩
  · refine ⟨_, X, hvol, fun q hq => ?_⟩
    obtain ⟨hq, hne⟩ := List.mem_filter.1 hq
    refine ⟨hheld q hq, ?_⟩
    by_contra hcon
    obtain ⟨h₀, heq⟩ := not_or.1 hcon
    obtain rfl : q = x.raw.firstCluster := not_not.1 heq
    -- the entry is no directory, and its chain is not that of one
    have hfile : x.raw.isDir = false := by simpa [hx] using hne
    exact ((hv.file p hp _ (keyed_toSlot hx).1 hfile).resolve_left h₀) (hheld _ hq)

/-- **A write** through a node that knows its directory. -/
theorem VolInv.write (hG : GeoOk G) {fuel size offset : ℕ} {buf : ℕ → UInt8} {r : ℤ} {m₁ : FatMem Disk}
    {room : Option Bool} {node node' : FatNode} (hv : Volume G st.mem.dev D X) (hheld : ∀ q ∈ st.held, q ∈ D)
    (hp : p ∈ D) (hroom : room ≠ some false)
    (hfind : fatFinddir Disk.dev G room p name st.mem = some (some node, m₁)) (htype : node.type = .file)
    (hf : fatWrite Disk.dev G fuel node buf size offset m₁ = some (r, node', m)) :
    VolInv G { st with mem := m } := by
  obtain ⟨hd, hnode⟩ := fatFinddir_volume hv hp hfind
  obtain ⟨x, hx, hmade⟩ := Option.bind_eq_some_iff.1 hnode.symm
  obtain ⟨ctx, hctx, rfl⟩ := Option.map_eq_some_iff.1 hmade
  obtain rfl : ctx = true := by
    cases ctx with
    | true => rfl
    | false => exact absurd hctx hroom
  have hv₁ : Volume G m₁.dev D X := by rwa [hd]
  have hslot : (G.keyed m₁ p name).map (·.toSlot) = some x.toSlot := toSlot_keyed_congr m₁ (by rw [hd]) rfl hx
  obtain ⟨y, hy, hyx⟩ := Option.map_eq_some_iff.1 hslot
  have hraw : x.raw = y.raw := congrArg Slot.raw hyx.symm
  have hfile : y.raw.isDir = false := by
    by_contra hdir
    have hisDir : (nodeOf true p name x.raw).type = .dir := type_eq_dir.2 (by rw [hraw]; simpa using hdir)
    rw [hisDir] at htype
    cases htype
  rw [hraw] at hf
  obtain ⟨X', hvol, -⟩ := fatWrite_spec hG hv₁ hp ((lookup_eq_keyed (hv₁.tidy p hp)).trans hy) hfile hf
  exact ⟨D, X', hvol, hheld⟩

/-- **Every such call keeps the invariant.** -/
theorem VolInv.call (hG : GeoOk G) {fuel : ℕ} {call : VolCall} (hinv : VolInv G st)
    (hfresh : freshCall st call = true) (h : volCall G st fuel call = some st') : VolInv G st' := by
  obtain ⟨D, X, hv, hheld⟩ := hinv
  obtain ⟨hdir, hroom⟩ := Bool.and_eq_true_iff.1 hfresh
  have hp := hheld _ (of_decide_eq_true hdir)
  unfold volCall at h
  split_ifs at h
  cases call with
  | finddir p name room =>
      obtain ⟨⟨node, m⟩, hfind, hst⟩ := Option.bind_eq_some_iff.1 h
      exact Option.some.inj hst ▸ VolInv.finddir hv hheld hp hfind
  | create p name type =>
      obtain ⟨⟨r, m⟩, hcreate, hst⟩ := Option.bind_eq_some_iff.1 h
      obtain rfl := Option.some.inj hst
      obtain ⟨D', X', hvol, hsub, -⟩ := fatCreate_spec hG hv hp hcreate
      exact ⟨D', X', hvol, fun q hq => hsub (hheld q hq)⟩
  | unlink p name =>
      obtain ⟨⟨r, m⟩, hunlink, hst⟩ := Option.bind_eq_some_iff.1 h
      exact Option.some.inj hst ▸ VolInv.unlink hG hv hheld hp hunlink
  | write p name room buf size offset =>
      obtain ⟨⟨node, m₁⟩, hfind, hrest⟩ := Option.bind_eq_some_iff.1 h
      cases node with
      | none => cases hrest
      | some node =>
          dsimp only at hrest
          split_ifs at hrest with htype
          obtain ⟨⟨r, node', m⟩, hwrite, hst⟩ := Option.bind_eq_some_iff.1 hrest
          exact Option.some.inj hst ▸ VolInv.write hG hv hheld hp (bne_iff_ne.1 hroom) hfind htype hwrite

theorem VolInv.of_reaches (hG : GeoOk G) (h : (volSystem G freshCall).Reaches st) : VolInv G st := by
  refine h.invariant (fun _ ⟨he, _, hheld⟩ => ⟨_, _, he.volume, by rw [hheld]; simp⟩) fun _ _ _ hinv hstep => ?_
  obtain ⟨hfresh, hcall⟩ := Option.ite_none_right_eq_some.1 hstep
  exact hinv.call hG hfresh hcall

theorem VolInv.clusterOwnership (hinv : VolInv G st) : ClusterOwnership G st.mem.dev := by
  obtain ⟨D, X, hv, -⟩ := hinv
  exact hv.toOwned.clusterOwnership hv.zero

/-- **Cluster ownership over whole runs.**  Whatever is done to a volume that was empty, by
`fat_create`, `fat_mkdir`, `fat_unlink` and `fat_write` on its directories and files, no two
entries share a cluster, and every chain ends, if no removed directory is used and every file that is
written has its context. -/
theorem clusterOwnership_of_reaches (G : FatState) (hG : GeoOk G) (st : VolState)
    (h : (volSystem G freshCall).Reaches st) : ClusterOwnership G st.mem.dev :=
  (VolInv.of_reaches hG h).clusterOwnership

end

/-! ### A small run -/

theorem emptyVolume_small : EmptyVolume smallFat (smallDisk zeroSector zeroSector) := by
  refine ⟨fun lba hlba => ?_, fun h32 => ?_, fun _ x hx => ?_⟩
  · have hroot : smallFat.dirLbas (smallDisk zeroSector zeroSector) smallFat.rootDir = [2] := by decide +kernel
    rw [hroot, List.mem_singleton] at hlba
    rw [hlba]
    rfl
  · cases h32
  · have hall : (List.range 63).all (fun x =>
        smallFat.entryAt (smallDisk zeroSector zeroSector) x == 0) = true := by decide +kernel
    have hlast : smallFat.lastCluster = 62 := by decide
    obtain ⟨-, hle⟩ := hx
    rw [hlast] at hle
    exact beq_iff_eq.1 (List.all_eq_true.1 hall x (List.mem_range.2 (by omega)))

/-- The state of a small volume after some calls. -/
def volRun (ok : VolState → VolCall → Bool) (calls : List VolCall) : Option VolState :=
  System.exec (fun st a => if ok st a.2 then volCall smallFat st a.1 a.2 else none)
    ⟨freshMem (smallDisk zeroSector zeroSector), [0], [0]⟩ (calls.map fun call => (64, call))

theorem volRun_reaches {ok : VolState → VolCall → Bool} {calls : List VolCall} {st : VolState}
    (h : volRun ok calls = some st) : (volSystem smallFat ok).Reaches st :=
  System.ofFun_reaches (.init ⟨emptyVolume_small, rfl, rfl⟩) h

theorem volRun_ownership {calls : List VolCall} {st : VolState} (h : volRun freshCall calls = some st) :
    ClusterOwnership smallFat st.mem.dev :=
  (VolInv.of_reaches geoOk_smallFat (volRun_reaches h)).clusterOwnership

/-- The hypotheses of `clusterOwnership_of_reaches` are satisfiable: on an empty volume a file is
written, a directory made, and the file is deleted. -/
theorem clusterOwnership_of_reaches_small : ∃ st, (volSystem smallFat freshCall).Reaches st ∧
    smallFat.entryAt st.mem.dev 2 = 0 ∧ smallFat.entryAt st.mem.dev 3 ≠ 0 ∧ ClusterOwnership smallFat st.mem.dev := by
  have hrun : (volRun freshCall [.create 0 [97] .file, .write 0 [97] (some true) (fun _ => 1) 1 0,
      .create 0 [98] .dir, .unlink 0 [97]]).any (fun st => decide (smallFat.entryAt st.mem.dev 2 = 0) &&
        decide (smallFat.entryAt st.mem.dev 3 ≠ 0)) = true := by
    decide +kernel
  obtain ⟨st, hst, hcheck⟩ := (Option.any_eq_true _ _).1 hrun
  rw [Bool.and_eq_true] at hcheck
  have hreach := volRun_reaches hst
  exact ⟨st, hreach, of_decide_eq_true hcheck.1, of_decide_eq_true hcheck.2,
    clusterOwnership_of_reaches smallFat geoOk_smallFat st hreach⟩

/-- Two files `a`, in a directory and in the root.  When the first one is written again, there is no
memory for the context of its node, and its first cluster is stored for the second one. -/
def contextCalls : List VolCall :=
  [.create 0 [100] .dir, .finddir 0 [100] (some true), .create 2 [97] .file,
    .write 2 [97] (some true) (fun _ => 1) 1 0, .create 0 [97] .file, .write 2 [97] (some false) (fun _ => 1) 1 0]

/-- A directory is removed, and its cluster becomes that of a file `x` whose bytes are an entry `Y` with
the cluster of a file `z`.  Then `y` is deleted in the removed directory. -/
def removedCalls : List VolCall :=
  [.create 0 [100] .dir, .finddir 0 [100] (some true), .unlink 0 [100], .create 0 [120] .file,
    .write 0 [120] (some true) (newDirent (padded 11 [89]) 0 3) 32 0, .create 0 [122] .file,
    .write 0 [122] (some true) (fun _ => 1) 1 0, .unlink 2 [121]]

/-- **Clusters are lost to two owners, or to none:** after the first calls the two files have one chain,
after the others the file `z` has a chain of free clusters. -/
theorem clusterOwnership_lost :
    (∃ st, (volSystem smallFat fun _ _ => true).Reaches st ∧ volRun (fun _ _ => true) contextCalls = some st ∧
      ¬ClusterOwnership smallFat st.mem.dev) ∧
    ∃ st, (volSystem smallFat fun _ _ => true).Reaches st ∧ volRun (fun _ _ => true) removedCalls = some st ∧
      ¬ClusterOwnership smallFat st.mem.dev := by
  constructor
  · have hrun : (volRun (fun _ _ => true) contextCalls).any (fun st => (smallFat.children st.mem.dev 0).any fun s =>
        s.raw.isDir && s.raw.firstCluster == 2 && (smallFat.children st.mem.dev 0).any fun t =>
          t.raw.firstCluster == 3 && (smallFat.children st.mem.dev 2).any fun u =>
            u.raw.firstCluster == 3 && t.lba != u.lba) = true := by
      decide +kernel
    obtain ⟨st, hst, h⟩ := (Option.any_eq_true _ _).1 hrun
    simp only [List.any_eq_true, Bool.and_eq_true, beq_iff_eq, bne_iff_ne] at h
    obtain ⟨s, hs, ⟨hdir, hfirst⟩, t, ht, hft, u, hu, hfu, hne⟩ := h
    refine ⟨st, volRun_reaches hst, hst, fun hc => hne ?_⟩
    have hsub : ReachDir smallFat st.mem.dev 2 := hfirst ▸ .sub .root hs hdir
    rw [hc.owned.once 0 .root 2 hsub t ht u hu (hft.trans hfu.symm) (by omega)]
  · have hrun : (volRun (fun _ _ => true) removedCalls).any (fun st => (smallFat.children st.mem.dev 0).any fun s =>
        s.raw.firstCluster == 3 && smallFat.entryAt st.mem.dev 3 == 0) = true := by
      decide +kernel
    obtain ⟨st, hst, h⟩ := (Option.any_eq_true _ _).1 hrun
    simp only [List.any_eq_true, Bool.and_eq_true, beq_iff_eq] at h
    obtain ⟨s, hs, hfirst, hentry⟩ := h
    refine ⟨st, volRun_reaches hst, hst, fun hc => ?_⟩
    obtain ⟨l, hl⟩ := hc.chain 0 .root s hs (by omega)
    exact (hl.used 3 (hfirst ▸ hl.head_mem)).2 hentry

end LighthOS
