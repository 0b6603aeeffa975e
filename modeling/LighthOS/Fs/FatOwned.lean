/-
# Who owns the clusters of a FAT volume

The entries of the directories of a volume, without `.` and `..`, and the chains that start
at their first clusters.  `Owned G d D X` says that the directories `D`, among them the
root, and the files in them have chains that share no cluster; `X` are the heads of
further chains that no entry names, because a call has just allocated them or because they
were lost.

The steps of the operations on such a volume: a call that stays in clusters of its own
changes no directory (`Owned.congr`), an entry that is deleted gives up its chain
(`Owned.shrink`), and an entry that is stored takes over a chain of `X`
(`Owned.adoptFile`, `Owned.adoptDir`).
-/

import LighthOS.Fs.FatBytes

namespace LighthOS

/-- The entries `.` and `..`. -/
def Dirent.isDot (e : Dirent) : Bool := e.name == padded 11 [46] || e.name == padded 11 [46, 46]

/-- The place of a slot on the disk. -/
def Slot.At (s t : Slot) : Prop := t.lba = s.lba ∧ t.off = s.off

/-- A slot whose entry is replaced if it is the one at `s`. -/
def Slot.replace (s : Slot) (e : Dirent) (t : Slot) : Slot :=
  if t.lba = s.lba ∧ t.off = s.off then ⟨s.lba, s.off, e.cut⟩ else t

namespace FatState

/-- The inode of the root directory. -/
def rootDir (G : FatState) : ℕ := G.rootNode.inode

/-- The entries of a directory. -/
def children (G : FatState) (d : Disk) (p : ℕ) : List Slot :=
  (liveSlots (G.dirSlots d p)).filter (!·.raw.isDot)

/-- From `d` to `d'` nothing was changed but the clusters `K` and their entries in the table. -/
structure Only (G : FatState) (d d' : Disk) (K : List ℕ) : Prop where
  valid : ∀ c ∈ K, G.Valid c
  entries : ∀ x, G.Valid x → x ∉ K → G.entryAt d' x = G.entryAt d x
  sectors : ∀ lba, ¬G.InTable lba → ¬G.InClusters K lba → d' lba = d lba

variable {G : FatState} {d d' : Disk} {D X : Set ℕ} {p q h c : ℕ} {l new K : List ℕ} {s t : Slot}
  {e : Dirent}

theorem Only.refl (hv : ∀ c ∈ K, G.Valid c) : Only G d d K := ⟨hv, fun _ _ _ => rfl, fun _ _ _ => rfl⟩

/-- A store to a sector of the clusters. -/
theorem Only.update (ho : Only G d d' K) (hG : GeoOk G) (hc : c ∈ K) {lba : ℕ} (hlba : lba ∈ G.clusterLbas c)
    {bytes : Sector} : Only G d (Function.update d' lba bytes) K := by
  have ht := hG.cluster_not_inTable (ho.valid c hc) hlba
  refine ⟨ho.valid, fun x hx hxK => (hG.entryAt_update ht hx.2).trans (ho.entries x hx hxK), fun a hin hout => ?_⟩
  rw [← ho.sectors a hin hout]
  exact Function.update_of_ne (fun he : a = lba => hout ⟨c, hc, he ▸ hlba⟩) _ _

theorem Written.only {off n : ℕ} {src : ℕ → UInt8} (hw : Written G d d' h l new off n src) :
    Only G d d' (l ++ new) :=
  ⟨fun _ hc => IsChain.valid hw.chain hc, hw.entries, hw.sectors⟩

theorem Grown.only (hg : Grown G d d' h l new) : Only G d d' (l ++ new) :=
  ⟨fun _ hc => IsChain.valid hg.chain hc, hg.entries, fun lba ht hlba => hg.sectors lba ht fun ⟨c, hc, hm⟩ =>
    hlba ⟨c, List.mem_append_right _ hc, hm⟩⟩

/-! ### The sectors and slots of directories -/

/-- The clusters of a directory only depend on the table. -/
theorem dirLbas_congr (he : ∀ x, G.Valid x → G.entryAt d' x = G.entryAt d x) (p : ℕ) :
    G.dirLbas d' p = G.dirLbas d p := by
  have hfrom : ∀ n c, G.clustersFrom d' n c = G.clustersFrom d n c := by
    intro n
    induction n with
    | zero => exact fun _ => rfl
    | succ n ih =>
        intro c
        rw [clustersFrom, clustersFrom, ih]
        by_cases hc : G.Valid c
        · rw [if_pos hc, if_pos hc, next, next, he c hc]
        · rw [if_neg hc, if_neg hc]
  unfold dirLbas
  rw [hfrom]

theorem dirSlots_eq (d : Disk) (p : ℕ) : G.dirSlots d p = (G.dirLbas d p).flatMap (sectorSlots d) := rfl

theorem mem_sectorSlots {lba : ℕ} : s ∈ sectorSlots d lba ↔
    s.lba = lba ∧ (∃ i < 16, s.off = 32 * i) ∧ s.raw = (d lba).slot s.off := by
  unfold sectorSlots
  simp only [List.map_map, List.mem_map, List.mem_range, Function.comp_apply]
  constructor
  · rintro ⟨i, hi, rfl⟩
    exact ⟨rfl, ⟨i, hi, rfl⟩, rfl⟩
  · rintro ⟨rfl, ⟨i, hi, hoff⟩, hraw⟩
    refine ⟨i, hi, ?_⟩
    obtain ⟨lba, off, raw⟩ := s
    simp only at hoff hraw ⊢
    rw [hraw, hoff]

theorem mem_dirSlots : s ∈ G.dirSlots d p ↔
    s.lba ∈ G.dirLbas d p ∧ (∃ i < 16, s.off = 32 * i) ∧ s.raw = (d s.lba).slot s.off := by
  rw [dirSlots_eq, List.mem_flatMap]
  constructor
  · rintro ⟨lba, hlba, hs⟩
    obtain ⟨rfl, hoff, hraw⟩ := mem_sectorSlots.1 hs
    exact ⟨hlba, hoff, hraw⟩
  · rintro ⟨hlba, hoff, hraw⟩
    exact ⟨s.lba, hlba, mem_sectorSlots.2 ⟨rfl, hoff, hraw⟩⟩

/-- A slot of a disk is determined by its place. -/
theorem eq_of_at (hs : s ∈ G.dirSlots d p) (ht : t ∈ G.dirSlots d q) (hst : s.At t) : s = t := by
  obtain ⟨-, -, hraw⟩ := mem_dirSlots.1 hs
  obtain ⟨-, -, hraw'⟩ := mem_dirSlots.1 ht
  obtain ⟨h₁, h₂⟩ := hst
  obtain ⟨lba, off, raw⟩ := s
  obtain ⟨lba', off', raw'⟩ := t
  simp only at h₁ h₂ hraw hraw'
  subst h₁ h₂
  rw [hraw, hraw']

theorem mem_liveSlots (hs : s ∈ liveSlots (G.dirSlots d p)) : s ∈ G.dirSlots d p :=
  List.mem_of_mem_filter ((List.takeWhile_sublist _).subset (List.mem_of_mem_filter hs))

theorem children_congr (hs : G.dirSlots d' p = G.dirSlots d p) : G.children d' p = G.children d p := by
  rw [children, children, hs]

theorem mem_children (hs : s ∈ G.children d p) : s ∈ G.dirSlots d p := mem_liveSlots (List.mem_of_mem_filter hs)

/-- A store to a slot. -/
theorem sectorSlots_setSlot (hoff : s.off % 32 = 0) (e : Dirent) (lba : ℕ) :
    sectorSlots (d.setSlot s e) lba = (sectorSlots d lba).map (s.replace e) := by
  unfold sectorSlots
  simp only [List.map_map]
  refine List.map_congr_left fun i _ => ?_
  simp only [Function.comp_apply, Slot.replace]
  by_cases hat : lba = s.lba ∧ 32 * i = s.off
  · rw [if_pos hat, hat.1, hat.2, slot_setSlot_self]
  · rw [if_neg hat]
    have hne := @slot_setSlot_of_ne d s ⟨lba, 32 * i, e⟩ e hoff (by simp) (by
      rw [not_and_or] at hat
      exact hat)
    rw [hne]

/-- **A store to a slot of a directory** replaces it in the list, and in no other directory. -/
theorem dirSlots_setSlot (hG : GeoOk G) (ht : ¬G.InTable s.lba) (hoff : s.off % 32 = 0) (e : Dirent) (q : ℕ) :
    G.dirSlots (d.setSlot s e) q = (G.dirSlots d q).map (s.replace e) := by
  have hentry : ∀ x, G.Valid x → G.entryAt (d.setSlot s e) x = G.entryAt d x := fun x hx =>
    hG.entryAt_update ht hx.2
  rw [dirSlots_eq, dirSlots_eq, dirLbas_congr hentry, List.map_flatMap]
  exact List.flatMap_congr fun lba _ => sectorSlots_setSlot hoff e lba

theorem isRootDir_of_valid (hc : G.Valid c) : isRootDir G c = false := by
  unfold isRootDir
  rw [Bool.and_eq_false_iff]
  exact Or.inr (beq_eq_false_iff_ne.2 (by have := hc.1; omega))

section Geo

variable (hG : GeoOk G)
include hG

theorem dirLbas_chain (hl : G.IsChain d p l) : G.dirLbas d p = l.flatMap G.clusterLbas := by
  have hlen := IsChain.length_lt hl
  rw [dirLbas, isRootDir_of_valid (IsChain.valid hl hl.head_mem), hG.rounds_eq]
  rw [IsChain.clustersFrom_eq hl (by omega)]
  rfl

theorem mem_dirLbas_chain (hl : G.IsChain d p l) {lba : ℕ} : lba ∈ G.dirLbas d p ↔ G.InClusters l lba := by
  rw [dirLbas_chain hG hl, List.mem_flatMap]
  rfl

omit hG in
theorem dirLbas_zero : G.dirLbas d 0 = if G.isFat32 then [] else G.rootLbas := by
  unfold dirLbas isRootDir
  cases G.isFat32 with
  | false => rfl
  | true => rw [clustersFrom_zero]; rfl

/-- The directories are the root of FAT16 or have a chain. -/
theorem dirLbas_not_inTable (hp : p = 0 ∨ ∃ l, G.IsChain d p l) {lba : ℕ} (h : lba ∈ G.dirLbas d p) :
    ¬G.InTable lba := by
  rcases hp with rfl | ⟨l, hl⟩
  · rw [dirLbas_zero] at h
    cases h32 : G.isFat32 with
    | true => simp [h32] at h
    | false =>
        rw [h32] at h
        exact hG.root_not_inTable h32 h
  · obtain ⟨c, hc, hmem⟩ := (mem_dirLbas_chain hG hl).1 h
    exact hG.cluster_not_inTable (IsChain.valid hl hc) hmem

/-- The sectors of a directory are not those of clusters that are not its own. -/
theorem dirLbas_apart (hp : p = 0 ∨ ∃ l, G.IsChain d p l) (hK : ∀ c ∈ K, G.Valid c)
    (hdis : ∀ l, G.IsChain d p l → l.Disjoint K) {lba : ℕ} (h : lba ∈ G.dirLbas d p) : ¬G.InClusters K lba := by
  rintro ⟨c, hc, hmem⟩
  rcases hp with rfl | ⟨l, hl⟩
  · rw [dirLbas_zero] at h
    cases h32 : G.isFat32 with
    | true => simp [h32] at h
    | false =>
        rw [h32] at h
        exact hG.root_not_cluster h32 (hK c hc) h hmem
  · obtain ⟨x, hx, hmem'⟩ := (mem_dirLbas_chain hG hl).1 h
    obtain rfl := hG.cluster_unique (IsChain.valid hl hx) (hK c hc) hmem' hmem
    exact hdis l hl hx hc

/-- **A call that stays in clusters of its own** changes no other directory. -/
theorem dirSlots_only (ho : Only G d d' K) (hp : p = 0 ∨ ∃ l, G.IsChain d p l)
    (hdis : ∀ l, G.IsChain d p l → l.Disjoint K) : G.dirSlots d' p = G.dirSlots d p := by
  have hlbas : G.dirLbas d' p = G.dirLbas d p := by
    rcases hp with rfl | ⟨l, hl⟩
    · rw [dirLbas_zero, dirLbas_zero]
    · have hl' : G.IsChain d' p l := IsChain.congr hl fun x hx =>
        ho.entries x (IsChain.valid hl hx) fun hxK => hdis l hl hx hxK
      rw [dirLbas_chain hG hl, dirLbas_chain hG hl']
  rw [dirSlots_eq, dirSlots_eq, hlbas]
  refine List.flatMap_congr fun lba hlba => ?_
  unfold sectorSlots
  rw [ho.sectors lba (dirLbas_not_inTable hG hp hlba) (dirLbas_apart hG hp ho.valid hdis hlba)]

end Geo

/-! ### Ownership -/

/-- The first clusters of the directories `D` and of the files in them. -/
def heads (G : FatState) (d : Disk) (D : Set ℕ) : Set ℕ :=
  {c | c ≠ 0 ∧ (c ∈ D ∨ ∃ p ∈ D, ∃ s ∈ G.children d p, s.raw.firstCluster = c)}

theorem heads_congr (hkids : ∀ p ∈ D, G.children d' p = G.children d p) : G.heads d' D = G.heads d D := by
  refine Set.ext fun c => and_congr_right fun _ => or_congr_right ?_
  constructor
  · rintro ⟨p, hp, s, hs, rfl⟩
    exact ⟨p, hp, s, by rwa [← hkids p hp], rfl⟩
  · rintro ⟨p, hp, s, hs, rfl⟩
    exact ⟨p, hp, s, by rwa [hkids p hp], rfl⟩

/-- **Ownership.**  `D` are directories, among them the root and those in directories of `D`;
the chains of these directories, of the files in them and of the heads in `X` share no
cluster. -/
structure Owned (G : FatState) (d : Disk) (D X : Set ℕ) : Prop where
  root : G.rootDir ∈ D
  sub : ∀ p ∈ D, ∀ s ∈ G.children d p, s.raw.isDir = true → s.raw.firstCluster ∈ D
  file : ∀ p ∈ D, ∀ s ∈ G.children d p, s.raw.isDir = false →
    s.raw.firstCluster = 0 ∨ s.raw.firstCluster ∉ D
  once : ∀ p ∈ D, ∀ q ∈ D, ∀ s ∈ G.children d p, ∀ t ∈ G.children d q,
    s.raw.firstCluster = t.raw.firstCluster → s.raw.firstCluster ≠ 0 → s = t
  rootOnce : ∀ p ∈ D, ∀ s ∈ G.children d p, s.raw.firstCluster = G.rootDir → s.raw.firstCluster = 0
  extra : ∀ x ∈ X, x ∉ G.heads d D
  chains : G.Chains d (G.heads d D ∪ X)

namespace Owned

variable (ho : Owned G d D X)
include ho

theorem dir_chain (hp : p ∈ D) : p = 0 ∨ ∃ l, G.IsChain d p l := by
  by_cases h₀ : p = 0
  · exact Or.inl h₀
  · exact Or.inr (ho.chains.chain p (Or.inl ⟨h₀, Or.inl hp⟩))

/-- The chain of a head is not that of a directory other than it. -/
theorem dir_apart (hp : p ∈ D) (hh : h ∈ G.heads d D ∪ X) (hne : p ≠ h) (hl : G.IsChain d h l) {k : List ℕ}
    (hk : G.IsChain d p k) : k.Disjoint l := by
  have h₀ : p ≠ 0 := by
    have := (IsChain.valid hk hk.head_mem).1
    omega
  exact ho.chains.apart p (Or.inl ⟨h₀, Or.inl hp⟩) h hh hne k l hk hl

/-- The entries of the directories are as before, and the chains still share no cluster. -/
theorem congr {X' : Set ℕ} (hkids : ∀ p ∈ D, G.children d' p = G.children d p) (hX : ∀ x ∈ X', x ∉ G.heads d D)
    (hc : G.Chains d' (G.heads d D ∪ X')) : Owned G d' D X' := by
  have hheads := heads_congr hkids
  refine ⟨ho.root, fun p hp s hs' => ?_, fun p hp s hs' => ?_, fun p hp q hq s hs' t ht' => ?_, fun p hp s hs' => ?_,
    by rwa [hheads], by rwa [hheads]⟩
  · rw [hkids p hp] at hs'
    exact ho.sub p hp s hs'
  · rw [hkids p hp] at hs'
    exact ho.file p hp s hs'
  · rw [hkids p hp] at hs'
    rw [hkids q hq] at ht'
    exact ho.once p hp q hq s hs' t ht'
  · rw [hkids p hp] at hs'
    exact ho.rootOnce p hp s hs'

/-- Directories and entries may go. -/
theorem shrink {D' : Set ℕ} (hD : D' ⊆ D) (hroot : G.rootDir ∈ D')
    (hkids : ∀ p ∈ D', ∀ s ∈ G.children d' p, s ∈ G.children d p)
    (hsub : ∀ p ∈ D', ∀ s ∈ G.children d' p, s.raw.isDir = true → s.raw.firstCluster ∈ D')
    (hc : G.Chains d' (G.heads d' D' ∪ X)) : Owned G d' D' X := by
  have hheads : G.heads d' D' ⊆ G.heads d D := by
    rintro c ⟨h₀, hc | ⟨p, hp, s, hs, rfl⟩⟩
    · exact ⟨h₀, Or.inl (hD hc)⟩
    · exact ⟨h₀, Or.inr ⟨p, hD hp, s, hkids p hp s hs, rfl⟩⟩
  refine ⟨hroot, hsub, fun p hp s hs hdir => ?_, fun p hp q hq s hs t ht => ?_, fun p hp s hs => ?_,
    fun x hx hmem => ho.extra x hx (hheads hmem), hc⟩
  · exact (ho.file p (hD hp) s (hkids p hp s hs) hdir).imp_right fun h hmem => h (hD hmem)
  · exact ho.once p (hD hp) q (hD hq) s (hkids p hp s hs) t (hkids q hq t ht)
  · exact ho.rootOnce p (hD hp) s (hkids p hp s hs)

/-- **A file takes over a chain**: of `X`, or its own. -/
theorem adoptFile (hp : p ∈ D) (hdir : t.raw.isDir = false)
    (hkids : ∀ q ∈ D, ∀ s ∈ G.children d' q, s ∈ G.children d q ∧ ¬t.At s ∨ s = t)
    (hfirst : t.raw.firstCluster = 0 ∨ t.raw.firstCluster ∈ X ∨
      ∃ s ∈ G.children d p, s.raw.firstCluster = t.raw.firstCluster ∧ s.raw.isDir = false ∧ t.At s)
    (he : ∀ x, G.Valid x → G.entryAt d' x = G.entryAt d x) : Owned G d' D (X \ {t.raw.firstCluster}) := by
  -- the new entry is the only one with its first cluster
  have hnew : ∀ q ∈ D, ∀ s ∈ G.children d q, ¬t.At s → s.raw.firstCluster = t.raw.firstCluster →
      s.raw.firstCluster = 0 := by
    intro q hq s hs hat heq
    rcases hfirst with h₀ | hX | ⟨r, hr, hrt, -, hat'⟩
    · rw [heq, h₀]
    · by_contra h₀
      exact ho.extra _ hX ⟨by rwa [← heq], Or.inr ⟨q, hq, s, hs, heq⟩⟩
    · by_contra h₀
      have := ho.once q hq p hp s hs r hr (heq.trans hrt.symm) h₀
      exact hat (this ▸ hat')
  have hmem : t.raw.firstCluster ≠ 0 → t.raw.firstCluster ∈ G.heads d D ∪ X := by
    intro h₀
    rcases hfirst with h | hX | ⟨r, hr, hrt, -, -⟩
    · exact absurd h h₀
    · exact Or.inr hX
    · exact Or.inl ⟨h₀, Or.inr ⟨p, hp, r, hr, hrt⟩⟩
  have hnotD : t.raw.firstCluster = 0 ∨ t.raw.firstCluster ∉ D := by
    rcases hfirst with h₀ | hX | ⟨r, hr, hrt, hrd, -⟩
    · exact Or.inl h₀
    · by_cases h₀ : t.raw.firstCluster = 0
      · exact Or.inl h₀
      · exact Or.inr fun hD => ho.extra _ hX ⟨h₀, Or.inl hD⟩
    · rw [← hrt]
      exact ho.file p hp r hr hrd
  have hheads : G.heads d' D ⊆ G.heads d D ∪ X := by
    rintro c ⟨h₀, hc | ⟨q, hq, s, hs, rfl⟩⟩
    · exact Or.inl ⟨h₀, Or.inl hc⟩
    · rcases hkids q hq s hs with ⟨hs, -⟩ | rfl
      · exact Or.inl ⟨h₀, Or.inr ⟨q, hq, s, hs, rfl⟩⟩
      · exact hmem h₀
  refine ⟨ho.root, fun q hq s hs hsd => ?_, fun q hq s hs hsd => ?_, fun q hq r hr s hs u hu heq h₀ => ?_,
    fun q hq s hs heq => ?_, ?_, ?_⟩
  · rcases hkids q hq s hs with ⟨hs, -⟩ | rfl
    · exact ho.sub q hq s hs hsd
    · rw [hdir] at hsd
      cases hsd
  · rcases hkids q hq s hs with ⟨hs, -⟩ | rfl
    · exact ho.file q hq s hs hsd
    · exact hnotD
  · rcases hkids q hq s hs with ⟨hs, hat⟩ | rfl <;> rcases hkids r hr u hu with ⟨hu, hat'⟩ | rfl
    · exact ho.once q hq r hr s hs u hu heq h₀
    · exact absurd (hnew q hq s hs hat heq) h₀
    · exact absurd (hnew r hr u hu hat' heq.symm) (heq ▸ h₀)
    · rfl
  · rcases hkids q hq s hs with ⟨hs, -⟩ | rfl
    · exact ho.rootOnce q hq s hs heq
    · rcases hnotD with h₀ | hD
      · exact h₀
      · exact absurd (heq ▸ ho.root) hD
  · rintro x ⟨hx, hxt⟩ ⟨h₀, hD | ⟨q, hq, s, hs, rfl⟩⟩
    · exact ho.extra x hx ⟨h₀, Or.inl hD⟩
    · rcases hkids q hq s hs with ⟨hs, -⟩ | rfl
      · exact ho.extra _ hx ⟨h₀, Or.inr ⟨q, hq, s, hs, rfl⟩⟩
      · exact hxt rfl
  · refine Chains.congr (Linked.Forest.mono ho.chains ?_) he
    rintro c (hc | ⟨hc, -⟩)
    · exact hheads hc
    · exact Or.inr hc

/-- **A new directory takes over a chain of `X`.** -/
theorem adoptDir (hX : t.raw.firstCluster ∈ X) (h₀ : t.raw.firstCluster ≠ 0) (hdir : t.raw.isDir = true)
    (hkids : ∀ q ∈ D, ∀ s ∈ G.children d' q, s ∈ G.children d q ∧ ¬t.At s ∨ s = t)
    (hempty : G.children d' t.raw.firstCluster = [])
    (he : ∀ x, G.Valid x → G.entryAt d' x = G.entryAt d x) :
    Owned G d' (insert t.raw.firstCluster D) (X \ {t.raw.firstCluster}) := by
  have hnotD : t.raw.firstCluster ∉ D := fun hD => ho.extra _ hX ⟨h₀, Or.inl hD⟩
  have hnew : ∀ q ∈ D, ∀ s ∈ G.children d q, s.raw.firstCluster ≠ t.raw.firstCluster := fun q hq s hs heq =>
    ho.extra _ hX ⟨h₀, Or.inr ⟨q, hq, s, hs, heq⟩⟩
  -- the entries of all directories: the old ones, and the new one
  have hall : ∀ q ∈ insert t.raw.firstCluster D, ∀ s ∈ G.children d' q,
      (∃ q ∈ D, s ∈ G.children d q) ∨ s = t := by
    rintro q (rfl | hq) s hs
    · rw [hempty] at hs
      cases hs
    · exact (hkids q hq s hs).imp_left fun h => ⟨q, hq, h.1⟩
  refine ⟨Or.inr ho.root, fun q hq s hs hsd => ?_, fun q hq s hs hsd => ?_, fun q hq r hr s hs u hu heq hne => ?_,
    fun q hq s hs heq => ?_, ?_, ?_⟩
  · rcases hall q hq s hs with ⟨r, hr, hs⟩ | rfl
    · exact Or.inr (ho.sub r hr s hs hsd)
    · exact Or.inl rfl
  · rcases hall q hq s hs with ⟨r, hr, hs⟩ | rfl
    · refine (ho.file r hr s hs hsd).imp_right fun h hmem => ?_
      rcases hmem with heq | hmem
      · exact hnew r hr s hs heq
      · exact h hmem
    · rw [hdir] at hsd
      cases hsd
  · rcases hall q hq s hs with ⟨q', hq', hs⟩ | rfl <;> rcases hall r hr u hu with ⟨r', hr', hu⟩ | rfl
    · exact ho.once q' hq' r' hr' s hs u hu heq hne
    · exact absurd heq (hnew q' hq' s hs)
    · exact absurd heq.symm (hnew r' hr' u hu)
    · rfl
  · rcases hall q hq s hs with ⟨r, hr, hs⟩ | rfl
    · exact ho.rootOnce r hr s hs heq
    · exact absurd (heq ▸ ho.root) hnotD
  · rintro x ⟨hx, hxt⟩ ⟨hx₀, (rfl | hD) | ⟨q, hq, s, hs, rfl⟩⟩
    · exact hxt rfl
    · exact ho.extra x hx ⟨hx₀, Or.inl hD⟩
    · rcases hall q hq s hs with ⟨r, hr, hs⟩ | rfl
      · exact ho.extra _ hx ⟨hx₀, Or.inr ⟨r, hr, s, hs, rfl⟩⟩
      · exact hxt rfl
  · refine Chains.congr (Linked.Forest.mono ho.chains ?_) he
    rintro c (⟨hc₀, (rfl | hD) | ⟨q, hq, s, hs, rfl⟩⟩ | ⟨hc, -⟩)
    · exact Or.inr hX
    · exact Or.inl ⟨hc₀, Or.inl hD⟩
    · rcases hall q hq s hs with ⟨r, hr, hs⟩ | rfl
      · exact Or.inl ⟨hc₀, Or.inr ⟨r, hr, s, hs, rfl⟩⟩
      · exact Or.inr hX
    · exact Or.inr hc

/-- A free cluster is on no chain. -/
theorem free_notMem_heads (hfree : G.entryAt d c = 0) : c ∉ G.heads d D ∪ X := by
  intro hmem
  obtain ⟨l, hl⟩ := ho.chains.chain c hmem
  exact (hl.used c hl.head_mem).2 hfree

/-- **A call that writes to a file** whose chain has been there before. -/
theorem written (hG : GeoOk G) {off n : ℕ} {src : ℕ → UInt8} (hh : h ∈ G.heads d D ∪ X) (hD : h ∉ D)
    (hl : G.IsChain d h l) (hw : Written G d d' h l new off n src) :
    Owned G d' D X ∧ ∀ p ∈ D, G.dirSlots d' p = G.dirSlots d p := by
  have hout : ∀ y, G.Taken d y → y ∉ l → G.entryAt d' y = G.entryAt d y := by
    intro y hy hyl
    refine hw.entries y hy.1 fun hmem => ?_
    rcases List.mem_append.1 hmem with hmem | hmem
    · exact hyl hmem
    · exact hy.2 (hw.free y hmem).2
  have hslots : ∀ p ∈ D, G.dirSlots d' p = G.dirSlots d p := by
    intro p hp
    refine dirSlots_only hG hw.only (ho.dir_chain hp) fun k hk x hx hmem => ?_
    rcases List.mem_append.1 hmem with hmem | hmem
    · exact ho.dir_apart hp hh (fun he => hD (he ▸ hp)) hl hk hx hmem
    · exact (hk.used x hx).2 (hw.free x hmem).2
  refine ⟨ho.congr (fun p hp => children_congr (hslots p hp)) ho.extra ?_, hslots⟩
  exact Linked.Forest.extend ho.chains hh hl hw.chain (fun y hy ht => ht.2 (hw.free y hy).2)
    (fun y hy hyl => follow_congr fun _ => hout y hy hyl)
    fun y hy hyl => ⟨hy.1, by rw [hout y hy hyl]; exact hy.2⟩

/-- **A call that allocates** the clusters of a new chain. -/
theorem insert (hG : GeoOk G) (hl : G.IsChain d' h l) (hK : Only G d d' l)
    (hfree : ∀ c ∈ l, G.entryAt d c = 0) :
    Owned G d' D (insert h X) ∧ ∀ p ∈ D, G.dirSlots d' p = G.dirSlots d p := by
  have hslots : ∀ p ∈ D, G.dirSlots d' p = G.dirSlots d p := fun p hp =>
    dirSlots_only hG hK (ho.dir_chain hp) fun k hk x hx hmem => (hk.used x hx).2 (hfree x hmem)
  have hout : ∀ y, G.Taken d y → G.entryAt d' y = G.entryAt d y := fun y hy =>
    hK.entries y hy.1 fun hmem => hy.2 (hfree y hmem)
  refine ⟨ho.congr (fun p hp => children_congr (hslots p hp)) ?_ ?_, hslots⟩
  · rintro x (rfl | hx)
    · exact fun hmem => ho.free_notMem_heads (hfree x hl.head_mem) (Or.inl hmem)
    · exact ho.extra x hx
  · rw [Set.union_insert]
    exact Linked.Forest.insert ho.chains hl (fun y hy ht => ht.2 (hfree y hy))
      (fun y hy => follow_congr fun _ => hout y hy) fun y hy => ⟨hy.1, by rw [hout y hy]; exact hy.2⟩

/-- **A store to the sectors of a chain of `X`**. -/
theorem store (hG : GeoOk G) (hx : h ∈ X) (hl : G.IsChain d h l) (hK : Only G d d' l)
    (he : ∀ x, G.Valid x → G.entryAt d' x = G.entryAt d x) :
    Owned G d' D X ∧ ∀ p ∈ D, G.dirSlots d' p = G.dirSlots d p := by
  have hD : h ∉ D := fun hD => ho.extra h hx
    ⟨by have := (IsChain.valid hl hl.head_mem).1; omega, Or.inl hD⟩
  have hslots : ∀ p ∈ D, G.dirSlots d' p = G.dirSlots d p := fun p hp =>
    dirSlots_only hG hK (ho.dir_chain hp) fun k hk =>
      ho.dir_apart hp (Or.inr hx) (fun he => hD (he ▸ hp)) hl hk
  exact ⟨ho.congr (fun p hp => children_congr (hslots p hp)) ho.extra (Chains.congr ho.chains he), hslots⟩

end Owned

end FatState

end LighthOS
