/-
# The areas of a FAT volume

The entries of all clusters lie in every copy of the table, and the copies are one behind the
other (`TableOk`); that is all that the table needs.  The geometry of a volume is consistent
(`GeoOk`) if, further, the copies, the root directory of FAT16 and the clusters lie one behind
the other, and the numbers of the clusters are below the marks for the end of a chain, as
those of a FAT16 or FAT32 volume are.

On such a volume `fat_set_cluster` changes the entry of one cluster and no sector outside of
the table, two clusters share no sector, and a store to a cluster or to the root directory
changes no entry.
-/

import LighthOS.Fs.FatWalk
import LighthOS.Lib.Forest
import LighthOS.Mm.Heap

namespace LighthOS

namespace FatState

/-- **Consistent geometry.** -/
structure GeoOk (G : FatState) : Prop where
  copies : 0 < G.numFats
  perCluster : 0 < G.sectorsPerCluster
  bytes : G.bytesPerCluster = G.sectorsPerCluster * 512
  numbers : G.totalClusters + 1 < G.eocMin
  table : (G.totalClusters + 1) * G.entrySize / 512 < G.sectorsPerFat
  root : G.isFat32 = false → G.fatStartLba + G.numFats * G.sectorsPerFat ≤ G.rootDirLba ∧
    G.rootDirLba + G.rootDirSectors ≤ G.dataStartLba
  data : G.fatStartLba + G.numFats * G.sectorsPerFat ≤ G.dataStartLba
  fits : G.dataStartLba + G.totalClusters * G.sectorsPerCluster ≤ 2 ^ 32
  rootCluster : G.isFat32 = true → 2 ≤ G.rootCluster ∧ G.rootCluster ≤ G.totalClusters + 1

/-- Copies of the table that hold the entries of all clusters, without wrap-around. -/
structure TableOk (G : FatState) : Prop where
  copies : 0 < G.numFats
  bytes : (G.totalClusters + 1) * G.entrySize < 2 ^ 32
  table : (G.totalClusters + 1) * G.entrySize / 512 < G.sectorsPerFat
  fits : G.fatStartLba + G.numFats * G.sectorsPerFat ≤ 2 ^ 32

/-- Each entry has a place of its own in each copy of the table. -/
def OwnEntries (G : FatState) : Prop :=
  ∀ f < G.numFats, ∀ g < G.numFats, ∀ c ≤ G.lastCluster, ∀ x ≤ G.lastCluster, G.copyLba g x = G.copyLba f c →
    G.entryByte x % 512 = G.entryByte c % 512 → g = f ∧ x = c

/-- A cluster of the volume. -/
abbrev Valid (G : FatState) (c : ℕ) : Prop := 2 ≤ c ∧ c ≤ G.lastCluster

/-- The sectors of the table. -/
def InTable (G : FatState) (lba : ℕ) : Prop :=
  G.fatStartLba ≤ lba ∧ lba < G.fatStartLba + G.numFats * G.sectorsPerFat

/-- The sectors of the root directory of FAT16. -/
def rootLbas (G : FatState) : List ℕ := (List.range G.rootDirSectors).map fun i => u32 (G.rootDirLba + i)

variable {G : FatState} {c x lba : ℕ} {d : Disk}

theorem fatClusterToLba_mem (h : 0 < G.sectorsPerCluster) (c : ℕ) : G.fatClusterToLba c ∈ G.clusterLbas c := by
  refine List.mem_map.2 ⟨0, List.mem_range.2 h, ?_⟩
  rw [Nat.add_zero]
  exact u32_of_lt (u32_lt _)

/-! ### Clusters below the last sector number -/

section Fits

variable (hfits : G.dataStartLba + G.totalClusters * G.sectorsPerCluster ≤ 2 ^ 32) (hc : 2 ≤ c)
  (hlast : c ≤ G.totalClusters + 1)

include hc hlast

theorem cluster_end : (c - 2) * G.sectorsPerCluster + G.sectorsPerCluster ≤
    G.totalClusters * G.sectorsPerCluster := by
  have := Nat.mul_le_mul_right G.sectorsPerCluster (show c - 2 + 1 ≤ G.totalClusters by omega)
  rwa [Nat.add_mul, Nat.one_mul] at this

include hfits

/-- The first sector of a cluster, without wrap-around. -/
theorem fatClusterToLba_eq (hpos : 0 < G.sectorsPerCluster) :
    G.fatClusterToLba c = G.dataStartLba + (c - 2) * G.sectorsPerCluster := by
  have hend := cluster_end hc hlast
  have hwrap : c + 2 ^ 32 - 2 = c - 2 + 2 ^ 32 := by omega
  unfold fatClusterToLba u32
  rw [hwrap, Nat.add_mul, ← Nat.add_assoc, Nat.add_mul_mod_self_left]
  exact Nat.mod_eq_of_lt (by omega)

/-- The sector `s` of a cluster, without wrap-around. -/
theorem sectorLba_eq {s : ℕ} (hs : s < G.sectorsPerCluster) :
    u32 (G.fatClusterToLba c + s) = G.dataStartLba + (c - 2) * G.sectorsPerCluster + s := by
  have hend := cluster_end hc hlast
  rw [fatClusterToLba_eq hfits hc hlast (by omega)]
  exact u32_of_lt (by omega)

theorem mem_clusterLbas : lba ∈ G.clusterLbas c ↔
    ∃ s < G.sectorsPerCluster, lba = G.dataStartLba + (c - 2) * G.sectorsPerCluster + s := by
  unfold clusterLbas
  rw [List.mem_map]
  constructor
  · rintro ⟨s, hs, rfl⟩
    exact ⟨s, List.mem_range.1 hs, sectorLba_eq hfits hc hlast (List.mem_range.1 hs)⟩
  · rintro ⟨s, hs, rfl⟩
    exact ⟨s, List.mem_range.2 hs, sectorLba_eq hfits hc hlast hs⟩

end Fits

theorem eocMin_le (G : FatState) : G.eocMin ≤ 0x0FFFFFF8 := by
  unfold eocMin
  split_ifs <;> omega

/-- A store to an entry changes no other one. -/
theorem OwnEntries.entryAt_setEntry (hO : OwnEntries G) (hcopies : 0 < G.numFats) (hc : c ≤ G.lastCluster)
    (hx : x ≤ G.lastCluster) (d : Disk) (v : ℕ) :
    G.entryAt (G.setEntry d c v) x = if x = c then G.low v else G.entryAt d x := by
  rw [FatState.entryAt_setEntry]
  by_cases hxc : x = c
  · subst hxc
    rw [if_pos rfl, if_pos ⟨0, hcopies, (copyLba_zero x).symm, rfl⟩]
  · rw [if_neg hxc, if_neg]
    rintro ⟨f, hf, hlba, hoff⟩
    exact hxc (hO f hf 0 hcopies c hc x hx (by rwa [copyLba_zero]) hoff).2

namespace TableOk

variable (hT : TableOk G)
include hT

theorem lastCluster_eq : G.lastCluster = G.totalClusters + 1 := by
  have hbytes := hT.bytes
  refine u32_of_lt ?_
  unfold entrySize at hbytes
  split_ifs at hbytes <;> omega

theorem entryByte_eq (hc : c ≤ G.lastCluster) : G.entryByte c = c * G.entrySize := by
  rw [hT.lastCluster_eq] at hc
  exact u32_of_lt ((Nat.mul_le_mul_right _ hc).trans_lt hT.bytes)

/-- The entry of a cluster lies in its copy of the table. -/
theorem entrySector_lt (hc : c ≤ G.lastCluster) : G.entryByte c / 512 < G.sectorsPerFat := by
  have htab := hT.table
  rw [hT.entryByte_eq hc]
  rw [hT.lastCluster_eq] at hc
  exact (Nat.div_le_div_right (Nat.mul_le_mul_right _ hc)).trans_lt htab

omit hT in
theorem copy_end {f : ℕ} (hf : f < G.numFats) :
    f * G.sectorsPerFat + G.sectorsPerFat ≤ G.numFats * G.sectorsPerFat := by
  have hmul : (f + 1) * G.sectorsPerFat ≤ G.numFats * G.sectorsPerFat := Nat.mul_le_mul_right _ hf
  rwa [Nat.add_mul, Nat.one_mul] at hmul

/-- The sector of an entry, without wrap-around, in its copy. -/
theorem copyLba_eq {f : ℕ} (hf : f < G.numFats) (hc : c ≤ G.lastCluster) :
    G.copyLba f c = G.fatStartLba + f * G.sectorsPerFat + G.entryByte c / 512 := by
  have hsec := hT.entrySector_lt hc
  have hmul := copy_end hf
  have hfits := hT.fits
  exact u32_of_lt (by omega)

theorem copyLba_inTable {f : ℕ} (hf : f < G.numFats) (hc : c ≤ G.lastCluster) : G.InTable (G.copyLba f c) := by
  have hsec := hT.entrySector_lt hc
  have hmul := copy_end hf
  rw [hT.copyLba_eq hf hc]
  unfold InTable
  omega

/-- Entries of different clusters, or in different copies, are stored in different places. -/
theorem copy_place {f g : ℕ} (hf : f < G.numFats) (hg : g < G.numFats) (hc : c ≤ G.lastCluster)
    (hx : x ≤ G.lastCluster) (hlba : G.copyLba g x = G.copyLba f c) : g = f := by
  have hsec := hT.entrySector_lt hc
  have hsec' := hT.entrySector_lt hx
  rw [hT.copyLba_eq hg hx, hT.copyLba_eq hf hc] at hlba
  have hspf : 0 < G.sectorsPerFat := by omega
  have hdiv : ∀ a r : ℕ, r < G.sectorsPerFat → (a * G.sectorsPerFat + r) / G.sectorsPerFat = a := by
    intro a r hr
    rw [Nat.add_comm, Nat.add_mul_div_right _ _ hspf, Nat.div_eq_of_lt hr, Nat.zero_add]
  have heq : g * G.sectorsPerFat + G.entryByte x / 512 = f * G.sectorsPerFat + G.entryByte c / 512 := by omega
  rw [← hdiv g _ hsec', heq, hdiv f _ hsec]

theorem entry_place {f g : ℕ} (hf : f < G.numFats) (hg : g < G.numFats) (hc : c ≤ G.lastCluster)
    (hx : x ≤ G.lastCluster) (hlba : G.copyLba g x = G.copyLba f c)
    (hoff : G.entryByte x % 512 = G.entryByte c % 512) : x = c := by
  obtain rfl := hT.copy_place hf hg hc hx hlba
  rw [hT.copyLba_eq hg hx, hT.copyLba_eq hg hc] at hlba
  have hbyte : G.entryByte x = G.entryByte c := by omega
  rw [hT.entryByte_eq hx, hT.entryByte_eq hc] at hbyte
  refine Nat.eq_of_mul_eq_mul_right ?_ hbyte
  unfold entrySize
  split_ifs <;> omega

theorem ownEntries : OwnEntries G := fun _ hf _ hg _ hc _ hx hlba hoff =>
  ⟨hT.copy_place hf hg hc hx hlba, hT.entry_place hf hg hc hx hlba hoff⟩

/-- **`fat_set_cluster` changes one entry.** -/
theorem entryAt_setEntry (hc : c ≤ G.lastCluster) (hx : x ≤ G.lastCluster) (d : Disk) (v : ℕ) :
    G.entryAt (G.setEntry d c v) x = if x = c then G.low v else G.entryAt d x :=
  hT.ownEntries.entryAt_setEntry hT.copies hc hx d v

end TableOk

namespace GeoOk

variable (hG : GeoOk G)
include hG

theorem tableOk : TableOk G := by
  have hnum := hG.numbers
  have hmin := G.eocMin_le
  refine ⟨hG.copies, ?_, hG.table, (hG.data.trans (Nat.le_add_right _ _)).trans hG.fits⟩
  unfold entrySize
  split_ifs <;> omega

theorem lastCluster_eq : G.lastCluster = G.totalClusters + 1 := hG.tableOk.lastCluster_eq

theorem bytes_pos : 0 < G.bytesPerCluster := by
  have := hG.perCluster
  have := hG.bytes
  omega

theorem lastCluster_succ : G.lastCluster + 1 < 2 ^ 32 := by
  have := hG.numbers
  have := G.eocMin_le
  rw [hG.lastCluster_eq]
  omega

theorem rounds_eq : u32 (G.totalClusters + 2) = G.lastCluster + 1 := by
  have := hG.numbers
  have := G.eocMin_le
  rw [hG.lastCluster_eq]
  exact u32_of_lt (by omega)

/-- **`fat_set_cluster` changes one entry.** -/
theorem entryAt_setEntry (hc : c ≤ G.lastCluster) (hx : x ≤ G.lastCluster) (d : Disk) (v : ℕ) :
    G.entryAt (G.setEntry d c v) x = if x = c then G.low v else G.entryAt d x :=
  hG.tableOk.entryAt_setEntry hc hx d v

/-- It changes no sector outside of the table. -/
theorem setEntry_outside (hc : c ≤ G.lastCluster) (h : ¬G.InTable lba) (d : Disk) (v : ℕ) :
    G.setEntry d c v lba = d lba :=
  setEntry_of_ne (fun _ hf he => h (by rw [he]; exact hG.tableOk.copyLba_inTable hf hc)) v d

theorem entryLba_inTable (hc : c ≤ G.lastCluster) : G.InTable (G.entryLba c) := by
  rw [← copyLba_zero]
  exact hG.tableOk.copyLba_inTable hG.copies hc

/-! ### The sectors of clusters -/

theorem fatClusterToLba_eq (hc : G.Valid c) :
    G.fatClusterToLba c = G.dataStartLba + (c - 2) * G.sectorsPerCluster :=
  FatState.fatClusterToLba_eq hG.fits hc.1 (by rw [← hG.lastCluster_eq]; exact hc.2) hG.perCluster

/-- The sector `s` of a cluster. -/
theorem sectorLba_eq (hc : G.Valid c) {s : ℕ} (hs : s < G.sectorsPerCluster) :
    u32 (G.fatClusterToLba c + s) = G.dataStartLba + (c - 2) * G.sectorsPerCluster + s :=
  FatState.sectorLba_eq hG.fits hc.1 (by rw [← hG.lastCluster_eq]; exact hc.2) hs

theorem mem_clusterLbas (hc : G.Valid c) : lba ∈ G.clusterLbas c ↔
    ∃ s < G.sectorsPerCluster, lba = G.dataStartLba + (c - 2) * G.sectorsPerCluster + s :=
  FatState.mem_clusterLbas hG.fits hc.1 (by rw [← hG.lastCluster_eq]; exact hc.2)

/-- A sector belongs to one cluster. -/
theorem cluster_unique (hc : G.Valid c) (hx : G.Valid x) (h : lba ∈ G.clusterLbas c)
    (h' : lba ∈ G.clusterLbas x) : c = x := by
  obtain ⟨s, hs, rfl⟩ := (hG.mem_clusterLbas hc).1 h
  obtain ⟨t, ht, heq⟩ := (hG.mem_clusterLbas hx).1 h'
  have hdiv : ∀ a r : ℕ, r < G.sectorsPerCluster → (a * G.sectorsPerCluster + r) / G.sectorsPerCluster = a := by
    intro a r hr
    rw [Nat.add_comm, Nat.add_mul_div_right _ _ hG.perCluster, Nat.div_eq_of_lt hr, Nat.zero_add]
  have hsum : (c - 2) * G.sectorsPerCluster + s = (x - 2) * G.sectorsPerCluster + t := by omega
  have hquot := congrArg (· / G.sectorsPerCluster) hsum
  simp only [hdiv _ _ hs, hdiv _ _ ht] at hquot
  obtain ⟨h₁, -⟩ := hc
  obtain ⟨h₂, -⟩ := hx
  omega

theorem cluster_not_inTable (hc : G.Valid c) (h : lba ∈ G.clusterLbas c) : ¬G.InTable lba := by
  obtain ⟨s, -, rfl⟩ := (hG.mem_clusterLbas hc).1 h
  have hdata := hG.data
  unfold InTable
  omega

/-- The sectors of a cluster are different. -/
theorem clusterLbas_nodup (hc : G.Valid c) : (G.clusterLbas c).Nodup := by
  unfold clusterLbas
  refine List.Nodup.map_on (fun s hs t ht heq => ?_) List.nodup_range
  rw [hG.sectorLba_eq hc (List.mem_range.1 hs), hG.sectorLba_eq hc (List.mem_range.1 ht)] at heq
  omega

/-! ### The root directory of FAT16 -/

section

variable (h16 : G.isFat32 = false)
include h16

theorem rootLba_eq {i : ℕ} (hi : i < G.rootDirSectors) : u32 (G.rootDirLba + i) = G.rootDirLba + i := by
  have hroot := (hG.root h16).2
  have hfits := hG.fits
  exact u32_of_lt (by omega)

theorem mem_rootLbas : lba ∈ G.rootLbas ↔ ∃ i < G.rootDirSectors, lba = G.rootDirLba + i := by
  unfold rootLbas
  rw [List.mem_map]
  constructor
  · rintro ⟨i, hi, rfl⟩
    exact ⟨i, List.mem_range.1 hi, hG.rootLba_eq h16 (List.mem_range.1 hi)⟩
  · rintro ⟨i, hi, rfl⟩
    exact ⟨i, List.mem_range.2 hi, hG.rootLba_eq h16 hi⟩

theorem rootLbas_nodup : G.rootLbas.Nodup := by
  unfold rootLbas
  refine List.Nodup.map_on (fun s hs t ht heq => ?_) List.nodup_range
  rw [hG.rootLba_eq h16 (List.mem_range.1 hs), hG.rootLba_eq h16 (List.mem_range.1 ht)] at heq
  omega

theorem root_not_inTable (h : lba ∈ G.rootLbas) : ¬G.InTable lba := by
  obtain ⟨i, -, rfl⟩ := (hG.mem_rootLbas h16).1 h
  have hroot := (hG.root h16).1
  unfold InTable
  omega

theorem root_not_cluster (hc : G.Valid c) (h : lba ∈ G.rootLbas) : lba ∉ G.clusterLbas c := by
  obtain ⟨i, hi, rfl⟩ := (hG.mem_rootLbas h16).1 h
  rw [hG.mem_clusterLbas hc]
  rintro ⟨s, -, heq⟩
  have hroot := (hG.root h16).2
  omega

end

end GeoOk

/-- An entry is read from one sector. -/
theorem entryAt_congr {d' : Disk} (h : d' (G.entryLba c) = d (G.entryLba c)) :
    G.entryAt d' c = G.entryAt d c := by
  rw [entryAt, entryAt, h]

/-- Stores outside of the table change no entry. -/
theorem GeoOk.entryAt_outside (hG : GeoOk G) {d' : Disk} (h : ∀ lba, G.InTable lba → d' lba = d lba)
    (hc : c ≤ G.lastCluster) : G.entryAt d' c = G.entryAt d c :=
  entryAt_congr (h _ (hG.entryLba_inTable hc))

theorem GeoOk.entryAt_update (hG : GeoOk G) {bytes : Sector} (ht : ¬G.InTable lba) (hc : c ≤ G.lastCluster) :
    G.entryAt (Function.update d lba bytes) c = G.entryAt d c :=
  hG.entryAt_outside (fun a hin => Function.update_of_ne (fun he : a = lba => ht (he ▸ hin)) _ _) hc

end FatState

theorem geoOk_smallFat : FatState.GeoOk smallFat := by
  constructor <;> decide

end LighthOS
