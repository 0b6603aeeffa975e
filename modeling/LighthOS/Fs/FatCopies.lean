/-
# The copies of the table

The law of `fat_set_cluster` and `fat_next_cluster` on a device without errors, for every
volume whose copies of the table lie one behind the other and hold the entries of all
clusters (`FatState.TableOk`): what is stored in an entry is read back, in every copy, and
nothing else is changed (`SetLaw`, `fatSetCluster_law`).

The loop over the copies puts the top four bits of the entry of one copy into the value
that the next one gets.  They are masked off there again (`merged_merged`), so each copy
keeps its own.
-/

import LighthOS.Fs.FatGeometry

namespace LighthOS

namespace FatState

/-- The bits of an entry that name a cluster: 28 of the 32 in FAT32. -/
def entryBits (G : FatState) : ℕ := if G.isFat32 then 28 else 16

/-- The entry of a cluster in a copy of the table, with all its bits. -/
def rawAt (G : FatState) (d : Disk) (f x : ℕ) : ℕ :=
  readLe (d (G.copyLba f x)) (G.entryByte x % 512) G.entrySize

/-- **The law of the table.**  What `fat_set_cluster` of `v` for the cluster `c` does to the links
that are read afterwards, to the bits of all copies, and to the rest of the disk. -/
structure SetLaw (G : FatState) (m m' : FatMem Disk) (c v : ℕ) : Prop where
  /-- The link of the cluster is the one that was stored, if it is one. -/
  next_self : (fatNextCluster Disk.dev G m' c).1 =
    if 2 ≤ v ∧ v ≤ G.totalClusters + 1 ∧ v < G.eocMin then v else 0
  /-- No other link is changed. -/
  next_other : ∀ x, x ≠ c → (fatNextCluster Disk.dev G m' x).1 = (fatNextCluster Disk.dev G m x).1
  /-- The top bits of all entries of FAT32 stay, in every copy. -/
  top : G.isFat32 = true → ∀ f < G.numFats, ∀ x ≤ G.totalClusters + 1,
    G.rawAt m'.dev f x / 2 ^ 28 = G.rawAt m.dev f x / 2 ^ 28
  /-- All bytes outside of the entry of the cluster in the copies stay. -/
  outside : ∀ lba i, (∀ f < G.numFats, ¬(lba = G.copyLba f c ∧ G.entryByte c % 512 ≤ i ∧
    i < G.entryByte c % 512 + G.entrySize)) → m'.dev lba i = m.dev lba i
  /-- Copies that agreed still agree. -/
  agree : ∀ f < G.numFats, ∀ g < G.numFats, ∀ x ≤ G.totalClusters + 1,
    G.rawAt m.dev f x % 2 ^ G.entryBits = G.rawAt m.dev g x % 2 ^ G.entryBits →
    G.rawAt m'.dev f x % 2 ^ G.entryBits = G.rawAt m'.dev g x % 2 ^ G.entryBits

variable {G : FatState} {d : Disk} {c x v f : ℕ}

theorem merged_merged (buf buf' : Sector) (off v : ℕ) :
    G.merged buf off (G.merged buf' off v) = G.merged buf off v := by
  unfold merged
  split_ifs
  · omega
  · rfl

section Table

variable (hO : OwnEntries G) (hc : c ≤ G.lastCluster)
include hO hc

/-- **What the loop over the copies stores**: in each copy the value, with the top bits that the
entry has there. -/
theorem setIn_copy {copies : List ℕ} (hnodup : copies.Nodup) (hlt : ∀ f ∈ copies, f < G.numFats) (hf : f ∈ copies)
    (v : ℕ) (d : Disk) : G.setIn c copies v d (G.copyLba f c) = (d (G.copyLba f c)).put (G.entryByte c % 512)
      G.entrySize (leBytes (G.merged (d (G.copyLba f c)) (G.entryByte c % 512) v)) := by
  induction copies generalizing v d with
  | nil => cases hf
  | cons g copies ih =>
      obtain ⟨hg, hnodup⟩ := List.nodup_cons.1 hnodup
      have hlt' : ∀ f ∈ copies, f < G.numFats := fun f hf => hlt f (List.mem_cons_of_mem _ hf)
      have hne : ∀ a ∈ copies, G.copyLba a c ≠ G.copyLba g c := by
        intro a ha heq
        obtain ⟨rfl, -⟩ := hO g (hlt g List.mem_cons_self) a (hlt' a ha) c hc c hc heq rfl
        exact hg ha
      rw [setIn]
      rcases List.mem_cons.1 hf with rfl | hf
      · rw [setIn_of_ne fun a ha => (hne a ha).symm, Function.update_self]
      · rw [ih hnodup hlt' hf, Function.update_of_ne (hne f hf), merged_merged]

theorem setEntry_copy (hf : f < G.numFats) (v : ℕ) (d : Disk) : G.setEntry d c v (G.copyLba f c) =
    (d (G.copyLba f c)).put (G.entryByte c % 512) G.entrySize
      (leBytes (G.merged (d (G.copyLba f c)) (G.entryByte c % 512) v)) :=
  setIn_copy hO hc List.nodup_range (fun _ h => List.mem_range.1 h) (List.mem_range.2 hf) v d

/-- Bytes outside of the entry stay. -/
theorem setEntry_byte {lba i : ℕ} (h : ∀ f < G.numFats, ¬(lba = G.copyLba f c ∧ G.entryByte c % 512 ≤ i ∧
    i < G.entryByte c % 512 + G.entrySize)) (v : ℕ) (d : Disk) : G.setEntry d c v lba i = d lba i := by
  by_cases hlba : ∃ f < G.numFats, lba = G.copyLba f c
  · obtain ⟨f, hf, rfl⟩ := hlba
    rw [setEntry_copy hO hc hf, Sector.put_of_outside]
    have := h f hf
    omega
  · rw [setEntry_of_ne fun f hf he => hlba ⟨f, hf, he⟩]

theorem rawAt_setEntry_of_ne (hx : x ≤ G.lastCluster) (hxc : x ≠ c) (hf : f < G.numFats) (v : ℕ) (d : Disk) :
    G.rawAt (G.setEntry d c v) f x = G.rawAt d f x := by
  refine readLe_congr fun i hi => setEntry_byte hO hc (fun g hg ⟨hlba, h₁, h₂⟩ => ?_) v d
  -- entries are aligned, so two that overlap are one
  obtain ⟨hcm, -⟩ := entryByte_mod (G := G) c
  obtain ⟨hxm, -⟩ := entryByte_mod (G := G) x
  refine hxc (hO g hg f hf c hc x hx hlba ?_).2
  unfold entrySize at hcm hxm h₂ hi
  split_ifs at hcm hxm h₂ hi <;> omega

/-- The entry that is stored, in each copy. -/
theorem rawAt_setEntry_self (hf : f < G.numFats) (hv : v < 2 ^ G.entryBits) (d : Disk) :
    G.rawAt (G.setEntry d c v) f c = if G.isFat32 then G.rawAt d f c / 2 ^ 28 * 2 ^ 28 + v else v := by
  rw [rawAt, setEntry_copy hO hc hf, readLe_put_self, rawAt]
  unfold merged entrySize
  unfold entryBits at hv
  split_ifs at hv ⊢ with h32
  · have hlt : readLe (d (G.copyLba f c)) (G.entryByte c % 512) 4 < 256 ^ 4 := readLe_lt _ _ _
    omega
  · omega

end Table

/-- **The law of the table**, for every volume whose copies of the table are in order, every
cluster and every value that fits into an entry. -/
theorem fatSetCluster_law (G : FatState) (hT : TableOk G) (m : FatMem Disk) (c v : ℕ)
    (hc : 2 ≤ c ∧ c ≤ G.totalClusters + 1) (hv : v < 2 ^ G.entryBits) :
    ∃ m', fatSetCluster Disk.dev G m c v = (true, m') ∧ SetLaw G m m' c v := by
  have hO := hT.ownEntries
  have hlast := hT.lastCluster_eq
  have hcl : c ≤ G.lastCluster := by rw [hlast]; exact hc.2
  have hlow : G.low v = v := by
    unfold low
    unfold entryBits at hv
    split_ifs at hv ⊢ <;> exact Nat.mod_eq_of_lt hv
  refine ⟨_, fatSetCluster_disk m c v, ?_, fun x hxc => ?_, fun h32 f hf x hx => ?_,
    fun lba i h => setEntry_byte hO hcl h v m.dev, fun f hf g hg x hx hagree => ?_⟩
  · rw [fatNextCluster_disk]
    change G.next (G.setEntry m.dev c v) c = _
    rw [next, if_neg (by omega), hT.entryAt_setEntry hcl hcl, if_pos rfl, hlow, link, hlast]
    split_ifs <;> omega
  · rw [fatNextCluster_disk, fatNextCluster_disk]
    change G.next (G.setEntry m.dev c v) x = G.next m.dev x
    unfold next
    split_ifs with hx
    · rfl
    · rw [hT.entryAt_setEntry hcl (by omega), if_neg hxc]
  · rw [← hlast] at hx
    by_cases hxc : x = c
    · subst hxc
      have hlt : v < 2 ^ 28 := by
        unfold entryBits at hv
        rwa [if_pos h32] at hv
      rw [rawAt_setEntry_self hO hcl hf hv, if_pos h32]
      omega
    · rw [rawAt_setEntry_of_ne hO hcl hx hxc hf]
  · rw [← hlast] at hx
    by_cases hxc : x = c
    · subst hxc
      rw [rawAt_setEntry_self hO hcl hf hv, rawAt_setEntry_self hO hcl hg hv]
      unfold entryBits
      split_ifs <;> omega
    · rw [rawAt_setEntry_of_ne hO hcl hx hxc hf, rawAt_setEntry_of_ne hO hcl hx hxc hg]
      exact hagree

/-- The hypotheses of `fatSetCluster_law` are satisfiable: cluster 3 becomes the successor of
cluster 2 on a small volume. -/
theorem fatSetCluster_law_small : ∃ m', fatSetCluster Disk.dev smallFat
    (freshMem (smallDisk zeroSector zeroSector)) 2 3 = (true, m') ∧
    SetLaw smallFat (freshMem (smallDisk zeroSector zeroSector)) m' 2 3 :=
  fatSetCluster_law smallFat (by constructor <;> decide) _ 2 3 (by decide) (by decide)

end FatState

end LighthOS
