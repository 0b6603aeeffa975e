/-
# The boot sector

`fat_mount` computes the areas of a volume from ten fields of the boot sector, with 32-bit
arithmetic.  It looks at some of them: there are copies of the table, clusters have sectors, and
the data area begins below the end of the volume.  Nothing relates the size of the table to the
number of clusters, or the size of the volume to the size of the device, no product is checked
for wrap-around, and the root cluster of a FAT32 volume may be any number.

The geometry of a mounted volume is consistent exactly where the fields agree in these points
(`mounted_consistent_iff`), and then the volume has all that its operations rely on
(`Mounted.geoOk`).
-/

import LighthOS.Fs.FatGeometry
import Mathlib.Order.CompletePartialOrder

namespace LighthOS

/-- The fields of `fat_bpb_common_t` and `fat32_bpb_t` that `fat_mount` reads. -/
structure Bpb where
  bytesPerSector : ℕ
  sectorsPerCluster : ℕ
  reservedSectors : ℕ
  numFats : ℕ
  rootEntries : ℕ
  totalSectors16 : ℕ
  sectorsPerFat16 : ℕ
  totalSectors32 : ℕ
  sectorsPerFat32 : ℕ
  rootCluster : ℕ

/-- The fields of a boot sector. -/
def Sector.bpb (bs : Sector) : Bpb where
  bytesPerSector := readLe bs 11 2
  sectorsPerCluster := readLe bs 13 1
  reservedSectors := readLe bs 14 2
  numFats := readLe bs 16 1
  rootEntries := readLe bs 17 2
  totalSectors16 := readLe bs 19 2
  sectorsPerFat16 := readLe bs 22 2
  totalSectors32 := readLe bs 32 4
  sectorsPerFat32 := readLe bs 36 4
  rootCluster := readLe bs 44 4

namespace Bpb

variable (b : Bpb)

/-- The volume is FAT32. -/
def isFat32 : Bool := decide (b.sectorsPerFat16 = 0)

/-- The sectors of one copy of the table. -/
def fatSize : ℕ := if b.isFat32 then b.sectorsPerFat32 else b.sectorsPerFat16

/-- The sectors of the root directory of FAT16. -/
def rootSects : ℕ := if b.isFat32 then 0 else (b.rootEntries * 32 + 511) / 512

/-- The sectors of the volume. -/
def totalSects : ℕ := if b.totalSectors16 ≠ 0 then b.totalSectors16 else b.totalSectors32

/-- The entries of the table in one of its sectors. -/
def entriesPerSector : ℕ := if b.isFat32 then 128 else 256

/-- The sectors in front of the data area. -/
def dataStart : ℕ := b.reservedSectors + b.numFats * b.fatSize + b.rootSects

/-- The clusters of the data area. -/
def clusters : ℕ := (b.totalSects - b.dataStart) / b.sectorsPerCluster

/-- The results of the products and sums of `fat_mount`, without wrap-around. -/
def computed : List ℕ :=
  [b.numFats * b.fatSize, b.reservedSectors + b.numFats * b.fatSize, b.rootEntries * 32,
    b.rootEntries * 32 + 511, b.dataStart, b.sectorsPerCluster * 512]

end Bpb

/-- **A consistent geometry** on a device of so many sectors: nothing wraps around; each cluster
has its entry in every copy of the table, where the driver looks for it, and its sectors on the
volume and on the device; the three areas are disjoint; and the root directory of FAT32 begins in
a cluster. -/
structure Consistent (b : Bpb) (G : FatState) (devSectors : ℕ) : Prop where
  noWrap : ∀ v ∈ b.computed, v < 2 ^ 32
  entries : ∀ c, 2 ≤ c → c ≤ G.totalClusters + 1 → ∀ f < G.numFats,
    G.copyLba f c = G.fatStartLba + f * G.sectorsPerFat + c * G.entrySize / 512 ∧
      c * G.entrySize / 512 < G.sectorsPerFat
  sectors : ∀ c, 2 ≤ c → c ≤ G.totalClusters + 1 → ∀ lba ∈ G.clusterLbas c,
    lba < b.totalSects ∧ lba < devSectors
  tableRoot : Disjoint (Set.Ico G.fatStartLba (G.fatStartLba + G.numFats * G.sectorsPerFat))
    (Set.Ico G.rootDirLba (G.rootDirLba + G.rootDirSectors))
  tableData : Disjoint (Set.Ico G.fatStartLba (G.fatStartLba + G.numFats * G.sectorsPerFat))
    (Set.Ico G.dataStartLba (G.dataStartLba + G.totalClusters * G.sectorsPerCluster))
  rootData : Disjoint (Set.Ico G.rootDirLba (G.rootDirLba + G.rootDirSectors))
    (Set.Ico G.dataStartLba (G.dataStartLba + G.totalClusters * G.sectorsPerCluster))
  rootCluster : G.isFat32 = true → 2 ≤ G.rootCluster ∧ G.rootCluster ≤ G.totalClusters + 1

/-- **Fields that agree**: the areas in front of the data end on the volume; where there are
clusters, the table has entries for them, at offsets of 32 bits, and the device has their sectors;
and the root cluster of FAT32 is one of them. -/
structure BpbOk (b : Bpb) (devSectors : ℕ) : Prop where
  data : b.dataStart < b.totalSects
  table : 0 < b.clusters → b.clusters + 2 ≤ b.fatSize * b.entriesPerSector
  offsets : 0 < b.clusters → (b.clusters + 1) * 512 < 2 ^ 32 * b.entriesPerSector
  device : 0 < b.clusters → b.dataStart + b.clusters * b.sectorsPerCluster ≤ devSectors
  rootCluster : b.isFat32 = true → 2 ≤ b.rootCluster ∧ b.rootCluster ≤ b.clusters + 1

instance (b : Bpb) (devSectors : ℕ) : Decidable (BpbOk b devSectors) :=
  decidable_of_iff (b.dataStart < b.totalSects ∧
    (0 < b.clusters → b.clusters + 2 ≤ b.fatSize * b.entriesPerSector) ∧
    (0 < b.clusters → (b.clusters + 1) * 512 < 2 ^ 32 * b.entriesPerSector) ∧
    (0 < b.clusters → b.dataStart + b.clusters * b.sectorsPerCluster ≤ devSectors) ∧
    (b.isFat32 = true → 2 ≤ b.rootCluster ∧ b.rootCluster ≤ b.clusters + 1))
  ⟨fun ⟨h₁, h₂, h₃, h₄, h₅⟩ => ⟨h₁, h₂, h₃, h₄, h₅⟩, fun ⟨h₁, h₂, h₃, h₄, h₅⟩ => ⟨h₁, h₂, h₃, h₄, h₅⟩⟩

/-! ### What `fat_mount` computes -/

/-- The geometry that `fat_mount` computes from the fields. -/
structure Mounted (b : Bpb) (G : FatState) : Prop where
  isFat32 : G.isFat32 = b.isFat32
  fatStartLba : G.fatStartLba = b.reservedSectors
  sectorsPerFat : G.sectorsPerFat = b.fatSize
  numFats : G.numFats = b.numFats
  rootDirLba : G.rootDirLba = if b.isFat32 then 0 else u32 (b.reservedSectors + b.numFats * b.fatSize)
  rootDirSectors : G.rootDirSectors = b.rootSects
  rootCluster : G.rootCluster = if b.isFat32 then b.rootCluster else 0
  dataStartLba : G.dataStartLba = u32 (u32 (b.reservedSectors + b.numFats * b.fatSize) + b.rootSects)
  sectorsPerCluster : G.sectorsPerCluster = b.sectorsPerCluster
  bytesPerCluster : G.bytesPerCluster = b.sectorsPerCluster * 512
  totalClusters : G.totalClusters = (b.totalSects - G.dataStartLba) / b.sectorsPerCluster
  copies : 0 < b.numFats
  perCluster : 0 < b.sectorsPerCluster
  inside : G.dataStartLba < b.totalSects
  total_lt : b.totalSects < 2 ^ 32
  entries_lt : b.rootEntries < 2 ^ 16
  perCluster_lt : b.sectorsPerCluster < 2 ^ 8

theorem Sector.totalSects_lt (bs : Sector) : bs.bpb.totalSects < 2 ^ 32 := by
  have h16 : readLe bs 19 2 < 256 ^ 2 := readLe_lt _ _ _
  have h32 : readLe bs 32 4 < 256 ^ 4 := readLe_lt _ _ _
  unfold Bpb.totalSects
  split_ifs
  · exact h16.trans (by norm_num)
  · exact h32

theorem fatGeometry_mounted {bs : Sector} {n : ℕ} {G : FatState} (h : fatGeometry bs n = some G) :
    Mounted bs.bpb G := by
  unfold fatGeometry at h
  simp only [Option.ite_none_left_eq_some, Option.some.injEq] at h
  obtain ⟨hboot, -, hinside, rfl⟩ := h
  simp only [not_or] at hboot
  obtain ⟨-, hspc, -, hfats⟩ := hboot
  exact ⟨rfl, rfl, rfl, rfl, rfl, rfl, rfl, rfl, rfl, rfl, rfl, Nat.pos_of_ne_zero hfats,
    Nat.pos_of_ne_zero hspc, Nat.lt_of_not_le hinside, bs.totalSects_lt, readLe_lt _ _ _, readLe_lt _ _ _⟩

namespace Mounted

variable {b : Bpb} {G : FatState} {n : ℕ} (hM : Mounted b G)

include hM

theorem fits : G.dataStartLba + G.totalClusters * G.sectorsPerCluster ≤ b.totalSects := by
  have hle := Nat.div_mul_le_self (b.totalSects - G.dataStartLba) b.sectorsPerCluster
  have hin := hM.inside
  rw [hM.totalClusters, hM.sectorsPerCluster]
  omega

/-- Nothing wraps around exactly where the areas end on the volume. -/
theorem noWrap_iff : (∀ v ∈ b.computed, v < 2 ^ 32) ↔ b.dataStart < b.totalSects := by
  have htotal := hM.total_lt
  have hentries := hM.entries_lt
  have hspc := hM.perCluster_lt
  simp only [Bpb.computed, List.forall_mem_cons, List.not_mem_nil, false_imp_iff, implies_true, and_true]
  constructor
  · rintro ⟨-, hroot, -, -, hdata, -⟩
    have hin := hM.inside
    unfold Bpb.dataStart at hdata ⊢
    rwa [hM.dataStartLba, u32_of_lt hroot, u32_of_lt hdata] at hin
  · intro hdata
    unfold Bpb.dataStart at hdata ⊢
    omega

/-- Without wrap-around `fat_mount` finds the data area and its clusters. -/
theorem areas_exact (hdata : b.dataStart < b.totalSects) :
    G.dataStartLba = b.dataStart ∧ G.totalClusters = b.clusters := by
  have htotal := hM.total_lt
  have hstart : G.dataStartLba = b.dataStart := by
    unfold Bpb.dataStart at hdata ⊢
    rw [hM.dataStartLba, u32_of_lt (show b.reservedSectors + b.numFats * b.fatSize < 2 ^ 32 by omega)]
    exact u32_of_lt (by omega)
  exact ⟨hstart, by rw [hM.totalClusters, hstart, Bpb.clusters]⟩

/-- The sector of the entry of `c` lies in the copy and is computed without wrap-around exactly
where the table is long enough and the offset has 32 bits. -/
theorem entry_iff (hdata : b.dataStart < b.totalSects) (c f : ℕ) (hf : f < b.numFats) :
    (G.copyLba f c = G.fatStartLba + f * G.sectorsPerFat + c * G.entrySize / 512 ∧
      c * G.entrySize / 512 < G.sectorsPerFat) ↔
    c + 1 ≤ b.fatSize * b.entriesPerSector ∧ c * 512 < 2 ^ 32 * b.entriesPerSector := by
  have htotal := hM.total_lt
  have hcopy : f * b.fatSize + b.fatSize ≤ b.numFats * b.fatSize := by
    have hmul := Nat.mul_le_mul_right b.fatSize hf
    rwa [Nat.succ_mul] at hmul
  have hplace : b.reservedSectors + f * b.fatSize + b.fatSize < 2 ^ 32 := by
    unfold Bpb.dataStart at hdata
    omega
  rw [hM.fatStartLba, hM.sectorsPerFat, FatState.copyLba, FatState.entryByte, hM.fatStartLba, hM.sectorsPerFat]
  unfold FatState.entrySize Bpb.entriesPerSector u32
  rw [hM.isFat32]
  split_ifs
  · omega
  · omega

/-- The device has the sectors of all clusters exactly where it has those up to the last. -/
theorem sectors_iff : (∀ c, 2 ≤ c → c ≤ G.totalClusters + 1 → ∀ lba ∈ G.clusterLbas c,
    lba < b.totalSects ∧ lba < n) ↔
      (0 < G.totalClusters → G.dataStartLba + G.totalClusters * G.sectorsPerCluster ≤ n) := by
  have hle := hM.fits
  have hfits : G.dataStartLba + G.totalClusters * G.sectorsPerCluster ≤ 2 ^ 32 := hle.trans hM.total_lt.le
  have hspc : 0 < G.sectorsPerCluster := hM.sectorsPerCluster ▸ hM.perCluster
  constructor
  · intro h hpos
    -- the last sector of the last cluster
    have hmem : G.dataStartLba + (G.totalClusters + 1 - 2) * G.sectorsPerCluster + (G.sectorsPerCluster - 1) ∈
        G.clusterLbas (G.totalClusters + 1) :=
      (FatState.mem_clusterLbas hfits (by omega) le_rfl).2 ⟨G.sectorsPerCluster - 1, by omega, rfl⟩
    have hlt := (h (G.totalClusters + 1) (by omega) le_rfl _ hmem).2
    have hmul : (G.totalClusters - 1) * G.sectorsPerCluster + G.sectorsPerCluster =
        G.totalClusters * G.sectorsPerCluster := by
      rw [← Nat.succ_mul, Nat.succ_eq_add_one, Nat.sub_add_cancel hpos]
    have hsub : G.totalClusters + 1 - 2 = G.totalClusters - 1 := by omega
    rw [hsub] at hlt
    omega
  · intro h c hc hlast lba hlba
    obtain ⟨s, hs, rfl⟩ := (FatState.mem_clusterLbas hfits hc hlast).1 hlba
    have hend := FatState.cluster_end hc hlast
    have hdev := h (by omega)
    omega

/-- Without wrap-around the table, the root directory and the data follow one another. -/
theorem areas_ordered (hdata : b.dataStart < b.totalSects) :
    (G.isFat32 = false → G.rootDirLba = G.fatStartLba + G.numFats * G.sectorsPerFat ∧
      G.rootDirLba + G.rootDirSectors = G.dataStartLba) ∧
    (G.isFat32 = true → G.rootDirSectors = 0) ∧
    G.fatStartLba + G.numFats * G.sectorsPerFat ≤ G.dataStartLba := by
  have htotal := hM.total_lt
  have hwrap : b.reservedSectors + b.numFats * b.fatSize < 2 ^ 32 := by
    unfold Bpb.dataStart at hdata
    omega
  rw [(hM.areas_exact hdata).1, hM.rootDirLba, hM.fatStartLba, hM.numFats, hM.sectorsPerFat,
    hM.rootDirSectors, hM.isFat32, u32_of_lt hwrap]
  refine ⟨fun h16 => ?_, fun h32 => ?_, Nat.le_add_right _ _⟩
  · rw [h16]
    exact ⟨rfl, rfl⟩
  · rw [Bpb.rootSects, if_pos h32]

/-- **The areas are disjoint.** -/
theorem areas_disjoint (hdata : b.dataStart < b.totalSects) :
    Disjoint (Set.Ico G.fatStartLba (G.fatStartLba + G.numFats * G.sectorsPerFat))
      (Set.Ico G.rootDirLba (G.rootDirLba + G.rootDirSectors)) ∧
    Disjoint (Set.Ico G.fatStartLba (G.fatStartLba + G.numFats * G.sectorsPerFat))
      (Set.Ico G.dataStartLba (G.dataStartLba + G.totalClusters * G.sectorsPerCluster)) ∧
    Disjoint (Set.Ico G.rootDirLba (G.rootDirLba + G.rootDirSectors))
      (Set.Ico G.dataStartLba (G.dataStartLba + G.totalClusters * G.sectorsPerCluster)) := by
  obtain ⟨h16, h32, hfront⟩ := hM.areas_ordered hdata
  simp only [Set.disjoint_left, Set.mem_Ico]
  cases hkind : G.isFat32 with
  | false =>
    obtain ⟨hroot, hend⟩ := h16 hkind
    refine ⟨fun lba => ?_, fun lba => ?_, fun lba => ?_⟩ <;> omega
  | true =>
    have hroot := h32 hkind
    refine ⟨fun lba => ?_, fun lba => ?_, fun lba => ?_⟩ <;> omega

/-- **Consistency is agreement of the fields.** -/
theorem consistent_iff : Consistent b G n ↔ BpbOk b n := by
  constructor
  · intro h
    have hdata := hM.noWrap_iff.1 h.noWrap
    obtain ⟨hstart, hclusters⟩ := hM.areas_exact hdata
    have hlast : 0 < b.clusters → b.clusters + 1 + 1 ≤ b.fatSize * b.entriesPerSector ∧
        (b.clusters + 1) * 512 < 2 ^ 32 * b.entriesPerSector := fun hpos =>
      (hM.entry_iff hdata (b.clusters + 1) 0 hM.copies).1
        (h.entries (b.clusters + 1) (by omega) (by rw [hclusters]) 0 (hM.numFats ▸ hM.copies))
    refine ⟨hdata, fun hpos => (hlast hpos).1, fun hpos => (hlast hpos).2, ?_, fun h32 => ?_⟩
    · rw [← hstart, ← hclusters, ← hM.sectorsPerCluster]
      exact hM.sectors_iff.1 h.sectors
    · have hroot := h.rootCluster (hM.isFat32.trans h32)
      rwa [hM.rootCluster, if_pos h32, hclusters] at hroot
  · intro h
    obtain ⟨hstart, hclusters⟩ := hM.areas_exact h.data
    obtain ⟨htr, htd, hrd⟩ := hM.areas_disjoint h.data
    refine ⟨hM.noWrap_iff.2 h.data, fun c hc hlast f hf => ?_, ?_, htr, htd, hrd, fun h32 => ?_⟩
    · rw [hclusters] at hlast
      rw [hM.numFats] at hf
      have htable := h.table (by omega)
      have hoffset := (Nat.mul_le_mul_right 512 hlast).trans_lt (h.offsets (by omega))
      exact (hM.entry_iff h.data c f hf).2 ⟨by omega, hoffset⟩
    · rw [hM.sectors_iff, hstart, hclusters, hM.sectorsPerCluster]
      exact h.device
    · rw [hM.isFat32] at h32
      rw [hM.rootCluster, if_pos h32, hclusters]
      exact h.rootCluster h32

/-- **A volume for the operations**: where the fields agree and the numbers of the clusters are
below the marks for the end of a chain, the geometry is what the driver relies on. -/
theorem geoOk (h : BpbOk b n) (hpos : 0 < b.clusters) (hnumbers : b.clusters + 1 < G.eocMin) :
    FatState.GeoOk G := by
  obtain ⟨hstart, hclusters⟩ := hM.areas_exact h.data
  obtain ⟨h16, -, hfront⟩ := hM.areas_ordered h.data
  refine ⟨hM.numFats ▸ hM.copies, hM.sectorsPerCluster ▸ hM.perCluster, ?_, ?_, ?_, fun hkind => ?_, hfront,
    hM.fits.trans hM.total_lt.le, ?_⟩
  · rw [hM.bytesPerCluster, hM.sectorsPerCluster]
  · rwa [hclusters]
  · rw [hclusters]
    exact ((hM.entry_iff h.data (b.clusters + 1) 0 hM.copies).2 ⟨h.table hpos, h.offsets hpos⟩).2
  · obtain ⟨hroot, hend⟩ := h16 hkind
    exact ⟨hroot.ge, hend.le⟩
  · exact (hM.consistent_iff.2 h).rootCluster

end Mounted

/-- **Consistent geometry exactly where the fields agree**: for every device, every boot sector that
it reads and every number of sectors with which `fat_mount` returns a node. -/
theorem mounted_consistent_iff {σ : Type} (dev : BlkDev σ) (s : σ) (bs : Sector)
    (hread : (dev.readSector s 0).1 = some bs) (devSectors : ℕ) (G : FatState) (node : FatNode)
    (hmount : fatMount dev devSectors s = some (G, node)) :
    Consistent bs.bpb G devSectors ↔ BpbOk bs.bpb devSectors := by
  have hG : fatGeometry bs devSectors = some G := by
    unfold fatMount at hmount
    rw [hread] at hmount
    obtain ⟨G', hG', heq⟩ := Option.map_eq_some_iff.1 hmount
    cases heq
    exact hG'
  exact (fatGeometry_mounted hG).consistent_iff

/-- The hypotheses of `mounted_consistent_iff` are satisfiable: the small volume is mounted and its
geometry is consistent. -/
theorem mounted_consistent_iff_small :
    fatMount Disk.dev 64 (smallDisk zeroSector zeroSector) = some (smallFat, smallFat.rootNode) ∧
      Consistent smallBoot.bpb smallFat 64 := by
  have hG : fatGeometry smallBoot 64 = some smallFat := by decide +kernel
  have hmount : fatMount Disk.dev 64 (smallDisk zeroSector zeroSector) =
      some (smallFat, smallFat.rootNode) := by
    show (fatGeometry smallBoot 64).map (fun st => (st, st.rootNode)) = _
    rw [hG, Option.map_some]
  exact ⟨hmount, (mounted_consistent_iff Disk.dev (smallDisk zeroSector zeroSector) smallBoot rfl 64
    smallFat _ hmount).2 (by decide +kernel)⟩

/-- The boot sector of a volume of 2000 sectors with a table of one sector, for 256 clusters. -/
def shortTableBoot : Sector := fun i =>
  match i with
  | 19 => 0xD0
  | 20 => 7
  | _ => smallBoot i

/-- **A table that is too short is mounted.**  The entry of cluster 256 would be in the sector
behind the table, where the root directory is. -/
theorem short_table_mounted : ∃ G node,
    fatMount Disk.dev 2000 (fun _ => shortTableBoot) = some (G, node) ∧ G.totalClusters = 1997 ∧
      ¬Consistent shortTableBoot.bpb G 2000 := by
  have hrun : (fatMount Disk.dev 2000 (fun _ => shortTableBoot)).any (fun r =>
      r.1.totalClusters = 1997 && r.1.entrySize = 2 && r.1.sectorsPerFat = 1 && r.1.numFats = 1) = true := by
    decide +kernel
  obtain ⟨⟨G, node⟩, hmount, hG⟩ := (Option.any_eq_true _ _).1 hrun
  simp only [Bool.and_eq_true, decide_eq_true_eq] at hG
  obtain ⟨⟨⟨hclusters, hsize⟩, hspf⟩, hfats⟩ := hG
  refine ⟨G, node, hmount, hclusters, fun h => ?_⟩
  have hentry := (h.entries 256 (by omega) (by omega) 0 (by omega)).2
  rw [hsize, hspf] at hentry
  omega

end LighthOS
