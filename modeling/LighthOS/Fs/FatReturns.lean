/-
# Which calls of the FAT driver return

On a device without errors, whatever the table and the directories hold: the walk through
a directory, `fat_read` and `fat_write` count their rounds, `fat_alloc_cluster` comes to
the last cluster, and `fat_free_chain` breaks the cycles that it follows by clearing their
entries (`FatState.freeChain_isSome`).  What is not bounded is the loop with which
`fat_create` looks for the last cluster of a directory without a free slot: it returns
exactly where the chain of the directory ends.
-/

import LighthOS.Fs.FatWalk

namespace LighthOS

/-! ### The calls -/

/-- A call of the driver.  Directories are given by their inode. -/
inductive FatOp where
  | finddir (room : Option Bool) (dir : ℕ) (name : Bytes)
  | readdir (dir index : ℕ)
  | read (node : FatNode) (size offset : ℕ)
  | write (node : FatNode) (buf : ℕ → UInt8) (size offset : ℕ)
  | create (dir : ℕ) (name : Bytes) (type : VfsType)
  | mkdir (dir : ℕ) (name : Bytes)
  | unlink (dir : ℕ) (name : Bytes)

/-- The state of the driver after a call, if the call returns within the given number of
rounds for each loop. -/
def fatRun {σ : Type} (dev : BlkDev σ) (G : FatState) (fuel : ℕ) (op : FatOp) (m : FatMem σ) :
    Option (FatMem σ) :=
  match op with
  | .finddir room dir name => (fatFinddir dev G room dir name m).map Prod.snd
  | .readdir dir index => (fatReaddir dev G dir index m).map Prod.snd
  | .read node size offset => (fatRead dev G node size offset m).map Prod.snd
  | .write node buf size offset => (fatWrite dev G fuel node buf size offset m).map fun r => r.2.2
  | .create dir name type => (fatCreate dev G fuel dir name type m).map Prod.snd
  | .mkdir dir name => (fatMkdir dev G fuel dir name m).map Prod.snd
  | .unlink dir name => (fatUnlink dev G fuel dir name m).map Prod.snd

/-! ### Chains -/

namespace FatState

variable {G : FatState} {d : Disk} {c : ℕ}

variable (G d c) in
/-- The links from a cluster come to an end. -/
def ChainEnds : Prop := ∃ n, (G.next d)^[n] c = 0

theorem next_zero : G.next d 0 = 0 := by
  unfold next
  rw [if_pos (Or.inl (by norm_num))]

/-- The links that are followed lead to clusters of the volume, so that a chain that ends does so
after at most as many links as there are clusters. -/
theorem ChainEnds.bound (h : G.ChainEnds d c) : ∃ n < G.lastCluster + 2, (G.next d)^[n + 1] c = 0 := by
  classical
  obtain ⟨N, hN, hmin⟩ : ∃ N, (G.next d)^[N] c = 0 ∧ ∀ k < N, (G.next d)^[k] c ≠ 0 :=
    ⟨Nat.find h, Nat.find_spec h, fun k hk => Nat.find_min h hk⟩
  by_cases hle : N ≤ G.lastCluster + 2
  · rcases N with _ | N
    · obtain rfl : c = 0 := hN
      exact ⟨0, by omega, next_zero (G := G) (d := d)⟩
    · exact ⟨N, by omega, hN⟩
  · -- a cluster comes up twice among the first ones, and then the chain is shorter
    obtain ⟨i, hi, j, hj, hne, heq⟩ := Finset.exists_ne_map_eq_of_card_lt_of_maps_to
      (s := Finset.range (G.lastCluster + 2)) (t := Finset.range (G.lastCluster + 1))
      (f := fun k => (G.next d)^[k + 1] c) (by simp) fun k _ => by
        simp only [Finset.coe_range, Set.mem_Iio, Function.iterate_succ_apply']
        exact Nat.lt_succ_of_le (next_le d _)
    have hshift : ∀ {i j : ℕ}, i < j → j < G.lastCluster + 2 →
        (G.next d)^[i + 1] c = (G.next d)^[j + 1] c → False := by
      intro i j hij hj heq
      refine hmin (N - (j + 1) + (i + 1)) (by omega) ?_
      rw [Function.iterate_add_apply, heq, ← Function.iterate_add_apply,
        show N - (j + 1) + (j + 1) = N by omega]
      exact hN
    rw [Finset.mem_range] at hi hj
    rcases Nat.lt_or_gt_of_ne hne with hij | hij
    · exact absurd (hshift hij hj heq) id
    · exact absurd (hshift hij hi heq.symm) id

/-- The clusters with a successor. -/
def linked (G : FatState) (d : Disk) : Finset ℕ :=
  (Finset.range (G.lastCluster + 1)).filter fun x => G.next d x ≠ 0

theorem next_setEntry_self (h : 0 < G.numFats) : G.next (G.setEntry d c 0) c = 0 := by
  unfold next
  rw [entryAt_setEntry_self h, low_zero, link_zero, ite_self]

/-- Clearing an entry adds no link, and takes away that of the cluster. -/
theorem linked_setEntry (h : 0 < G.numFats) : G.linked (G.setEntry d c 0) ⊆ (G.linked d).erase c := by
  intro x hx
  obtain ⟨hlt, hne⟩ := Finset.mem_filter.1 hx
  have hxc : x ≠ c := by
    rintro rfl
    exact hne (next_setEntry_self h)
  refine Finset.mem_erase.2 ⟨hxc, Finset.mem_filter.2 ⟨hlt, ?_⟩⟩
  unfold next at hne ⊢
  split_ifs at hne with hrange
  · exact absurd rfl hne
  · rw [entryAt_setEntry] at hne
    rw [if_neg hrange]
    split_ifs at hne
    · rw [low_zero, link_zero] at hne
      exact absurd rfl hne
    · exact hne

/-- **`fat_free_chain` returns**, cyclic chains included: each round that goes on clears a
link. -/
theorem freeChain_isSome (h : 0 < G.numFats) {fuel : ℕ} (hfuel : (G.linked d).card < fuel) :
    (G.freeChain fuel c d).isSome := by
  induction fuel generalizing c d with
  | zero => omega
  | succ fuel ih =>
      rw [freeChain]
      split_ifs with hc hnext
      · rfl
      · refine ih ?_
        have hmem : c ∈ G.linked d := Finset.mem_filter.2 ⟨Finset.mem_range.2 (by omega), hnext⟩
        have hle := Finset.card_le_card (linked_setEntry (d := d) (c := c) h)
        rw [Finset.card_erase_of_mem hmem] at hle
        have hpos := Finset.card_pos.2 ⟨c, hmem⟩
        omega
      · rfl

theorem card_linked_le : (G.linked d).card ≤ G.lastCluster + 1 :=
  (Finset.card_filter_le _ _).trans (Finset.card_range _).le

end FatState

section Returns

variable {G : FatState}

/-- The search for the last cluster returns exactly where the chain ends soon enough. -/
theorem lastOfChain_isSome (fuel c : ℕ) (m : FatMem Disk) :
    (lastOfChain Disk.dev G fuel c m).isSome ↔ ∃ n < fuel, (G.next m.dev)^[n + 1] c = 0 := by
  induction fuel generalizing c with
  | zero => simp [lastOfChain]
  | succ fuel ih =>
      rw [lastOfChain]
      simp only [fatNextCluster_disk]
      split_ifs with hnext
      · exact ⟨fun _ => ⟨0, Nat.succ_pos fuel, hnext⟩, fun _ => rfl⟩
      · rw [ih]
        constructor
        · rintro ⟨n, hn, h⟩
          exact ⟨n + 1, Nat.succ_lt_succ hn, h⟩
        · rintro ⟨n, hn, h⟩
          rcases n with _ | n
          · exact absurd h hnext
          · exact ⟨n, Nat.lt_of_succ_lt_succ hn, h⟩

/-- A slot of a directory is free. -/
def HasRoom (G : FatState) (d : Disk) (dir : ℕ) : Prop :=
  ∃ s ∈ G.dirSlots d dir, s.raw.isLong = false ∧ (s.raw.isEnd || s.raw.isDeleted) = true

theorem freeSlot_isSome (m : FatMem Disk) (dir : ℕ) :
    (G.freeSlot m dir).isSome ↔ HasRoom G m.dev dir := by
  unfold FatState.freeSlot HasRoom
  rw [List.find?_isSome]
  have hslots := FatState.map_toSlot_entriesOf (G.dirSlots m.dev dir) m.lfn.reset
  constructor
  · rintro ⟨e, he, hfree⟩
    have hmem : e.toSlot ∈ (G.dirSlots m.dev dir).filter (!·.raw.isLong) := by
      rw [← hslots]
      exact List.mem_map_of_mem he
    obtain ⟨hs, hlong⟩ := List.mem_filter.1 hmem
    exact ⟨e.toSlot, hs, by simpa using hlong, hfree⟩
  · rintro ⟨s, hs, hlong, hfree⟩
    have hmem : s ∈ (G.dirSlots m.dev dir).filter (!·.raw.isLong) :=
      List.mem_filter.2 ⟨hs, by simp [hlong]⟩
    rw [← hslots] at hmem
    obtain ⟨e, he, rfl⟩ := List.mem_map.1 hmem
    exact ⟨e, he, hfree⟩

/-- The search for a place in a directory comes to an end: the directory is the fixed root
directory, or it has a free slot, or its chain ends. -/
def GrowthEnds (G : FatState) (d : Disk) (dir : ℕ) : Prop :=
  isRootDir G dir = true ∨ HasRoom G d dir ∨ G.ChainEnds d dir

/-- **The second half of `fat_create`** returns exactly where the search for a place ends. -/
theorem addEntry_returns (fuel dir : ℕ) (ent : Dirent) (m : FatMem Disk) :
    ((addEntry Disk.dev G fuel dir ent m).isSome → GrowthEnds G m.dev dir) ∧
      (G.lastCluster + 1 < 2 ^ 32 → G.lastCluster + 2 ≤ fuel → GrowthEnds G m.dev dir →
        (addEntry Disk.dev G fuel dir ent m).isSome) := by
  obtain ⟨⟨rc, written, m₁⟩, hwalk, hfound⟩ := Option.map_eq_some_iff.1 (findFreeSlot_eq (G := G) ent dir m)
  have hadd : addEntry Disk.dev G fuel dir ent m = if written then some (0, m₁)
      else if isRootDir G dir then some (-1, m₁)
      else (lastOfChain Disk.dev G fuel dir m₁).bind fun (last, m₂) =>
        (fatAllocCluster Disk.dev G fuel m₂).bind fun (nc, m₃) =>
          if nc = 0 then some (-1, m₃)
          else some (0, (((fatSetCluster Disk.dev G m₃ last nc).2).writeSector Disk.dev
            (G.fatClusterToLba nc) (zeroSector.put 0 32 ent)).2) := by
    unfold addEntry
    rw [hwalk]
    rfl
  by_cases hroom : HasRoom G m.dev dir
  · obtain ⟨e, he⟩ := Option.isSome_iff_exists.1 ((freeSlot_isSome m dir).2 hroom)
    rw [he, Option.elim_some, Prod.mk.injEq] at hfound
    obtain ⟨rfl, -⟩ := hfound
    rw [hadd, if_pos rfl]
    exact ⟨fun _ => Or.inr (Or.inl hroom), fun _ _ _ => rfl⟩
  · have hnone : G.freeSlot m dir = none :=
      Option.not_isSome_iff_eq_none.1 fun h => hroom ((freeSlot_isSome m dir).1 h)
    rw [hnone, Option.elim_none, Prod.mk.injEq] at hfound
    obtain ⟨rfl, hdev⟩ := hfound
    rw [hadd, if_neg Bool.false_ne_true]
    split_ifs with hroot
    · exact ⟨fun _ => Or.inl hroot, fun _ _ _ => rfl⟩
    · refine ⟨fun h => ?_, fun hlast hfuel hends => ?_⟩
      · obtain ⟨r, hr⟩ := Option.isSome_iff_exists.1 h
        obtain ⟨⟨x, m₂⟩, hx, -⟩ := Option.bind_eq_some_iff.1 hr
        obtain ⟨n, -, hn⟩ := (lastOfChain_isSome fuel dir m₁).1 (Option.isSome_iff_exists.2 ⟨_, hx⟩)
        exact Or.inr (Or.inr ⟨n + 1, by rw [← hdev]; exact hn⟩)
      · have hchain : G.ChainEnds m₁.dev dir := by
          rw [hdev]
          exact (hends.resolve_left hroot).resolve_left hroom
        obtain ⟨n, hn, hzero⟩ := hchain.bound
        obtain ⟨⟨x, m₂⟩, hx⟩ := Option.isSome_iff_exists.1
          ((lastOfChain_isSome fuel dir m₁).2 ⟨n, by omega, hzero⟩)
        rw [hx, Option.bind_some]
        dsimp only
        rw [fatAllocCluster_returns hlast (by omega), Option.bind_some]
        split_ifs <;> rfl

/-! ### Reading and writing

These calls return on every device. -/

section Device

variable {σ : Type} {dev : BlkDev σ}

theorem allocFrom_isSome (hlast : G.lastCluster + 1 < 2 ^ 32) {fuel c : ℕ} (hfuel : 0 < fuel)
    (hc : G.lastCluster + 2 ≤ c + fuel) (m : FatMem σ) : (allocFrom dev G fuel c m).isSome := by
  induction fuel generalizing c m with
  | zero => omega
  | succ fuel ih =>
      rw [allocFrom]
      by_cases hend : G.lastCluster < c
      · rw [if_pos hend]
        rfl
      rw [if_neg hend]
      rcases m.readSector dev (G.entryLba c) with ⟨_ | buf, m₁⟩
      · rfl
      simp only
      split_ifs
      · rcases fatSetCluster dev G m₁ c G.eoc with ⟨_ | _, m₂⟩ <;> rfl
      · rw [u32_of_lt (by omega)]
        exact ih (by omega) (by omega) m₁

/-- `fat_alloc_cluster` comes to the last cluster. -/
theorem fatAllocCluster_isSome (hlast : G.lastCluster + 1 < 2 ^ 32) {fuel : ℕ} (hfuel : G.lastCluster < fuel)
    (m : FatMem σ) : (fatAllocCluster dev G fuel m).isSome :=
  allocFrom_isSome hlast (by omega) (by omega) m

theorem fatWalkChain_isSome (fuel : ℕ) (alloc : Bool)
    (halloc : alloc = true → ∀ m, (fatAllocCluster dev G fuel m).isSome) (n c : ℕ)
    (m : FatMem σ) : (fatWalkChain dev G fuel alloc n c m).isSome := by
  induction n generalizing c m with
  | zero => rfl
  | succ n ih =>
      rw [fatWalkChain]
      simp only
      by_cases hnext : (fatNextCluster dev G m c).1 ≠ 0
      · rw [if_pos hnext]
        exact ih _ _
      · rw [if_neg hnext]
        cases alloc with
        | false => rfl
        | true =>
            obtain ⟨r, hr⟩ := Option.isSome_iff_exists.1 (halloc rfl (fatNextCluster dev G m c).2)
            simp only [Bool.not_true, Bool.false_eq_true, if_false, hr, Option.bind_eq_bind,
              Option.bind_some]
            split_ifs
            · rfl
            · exact ih _ _

theorem readClusters_isSome (size n c off : ℕ) (out : Bytes) (m : FatMem σ) :
    (readClusters dev G size n c off out m).isSome := by
  induction n generalizing c off out m with
  | zero => rfl
  | succ n ih =>
      rw [readClusters]
      split_ifs
      · rfl
      · have hrun : (Loop.run (readSlice dev size (G.fatClusterToLba c) off)
            (List.range G.sectorsPerCluster) (true, out, m)).isSome := by
          refine Loop.run_isSome (fun s _ acc => ?_) _
          unfold readSlice
          simp only
          split_ifs
          · rfl
          · rfl
          · rcases acc.2.2.readSector dev (u32 (G.fatClusterToLba c + s)) with ⟨_ | buf, m₁⟩ <;> rfl
        obtain ⟨⟨b, ok, out₁, m₁⟩, hr⟩ := Option.isSome_iff_exists.1 hrun
        simp only [hr, Option.bind_eq_bind, Option.bind_some]
        split_ifs
        · exact ih _ _ _ _
        · rfl

theorem writeClusters_isSome {fuel : ℕ} (halloc : ∀ m, (fatAllocCluster dev G fuel m).isSome)
    (buf : ℕ → UInt8) (size n c off done : ℕ) (m : FatMem σ) :
    (writeClusters dev G fuel buf size n c off done m).isSome := by
  induction n generalizing c off done m with
  | zero => rfl
  | succ n ih =>
      rw [writeClusters]
      split_ifs
      · rfl
      · have hrun : (Loop.run (writeSlice dev buf size (G.fatClusterToLba c) off)
            (List.range G.sectorsPerCluster) (true, done, m)).isSome := by
          refine Loop.run_isSome (fun s _ acc => ?_) _
          unfold writeSlice
          simp only
          split_ifs
          · rfl
          · rfl
          · rcases acc.2.2.readSector dev (u32 (G.fatClusterToLba c + s)) with ⟨_ | sect, m₁⟩
            · rfl
            · simp only
              split <;> rfl
        obtain ⟨⟨b, ok, done₁, m₁⟩, hr⟩ := Option.isSome_iff_exists.1 hrun
        simp only [hr, Option.bind_eq_bind, Option.bind_some]
        split_ifs with hok hsize hnext
        · rfl
        · exact ih _ _ _ _
        · exact ih _ _ _ _
        · obtain ⟨r, hr⟩ := Option.isSome_iff_exists.1 (halloc (fatNextCluster dev G m₁ c).2)
          simp only [hr, Option.bind_some]
          split_ifs
          · rfl
          · exact ih _ _ _ _

/-- A walk through a directory counts its rounds. -/
theorem dirWalk_returns {α : Type} {fn : DirWalkFn σ α} (hfn : ∀ e lba off a m, (fn e lba off a m).isSome) (dir : ℕ)
    (a : α) (m : FatMem σ) : (dirWalk dev G fn dir a m).isSome := by
  have hsector : ∀ lba s, (walkSector dev fn lba s).isSome := by
    rintro lba ⟨rc, a, m⟩
    unfold walkSector
    simp only
    rcases m.readSector dev lba with ⟨_ | buf, m₁⟩
    · rfl
    · refine Loop.run_isSome (fun off _ s => ?_) _
      unfold walkSlot
      simp only
      split_ifs
      · rfl
      · rw [Option.isSome_map]
        exact hfn _ _ _ _ _
  have hclusters : ∀ n c s, (walkClusters dev G fn n c s).isSome := by
    intro n
    induction n with
    | zero => exact fun _ _ => rfl
    | succ n ih =>
        intro c s
        rw [walkClusters]
        split_ifs
        · obtain ⟨⟨going, rc, a, m⟩, hr⟩ := Option.isSome_iff_exists.1
            (Loop.run_isSome (fun lba (_ : lba ∈ G.clusterLbas c) s => hsector lba s) s)
          simp only [hr, Option.bind_eq_bind, Option.bind_some]
          split_ifs
          · exact ih _ _
          · rfl
        · rfl
  unfold dirWalk
  rw [Option.isSome_map]
  split_ifs
  · exact Loop.run_isSome (fun lba _ s => hsector lba s) _
  · exact hclusters _ _ _

theorem fatFlushDirent_isSome (parent : ℕ) (name : Bytes) (size first : ℕ) (m : FatMem σ) :
    (fatFlushDirent dev G parent name size first m).isSome := by
  rw [fatFlushDirent, Option.isSome_map]
  refine dirWalk_returns (fun e lba off a m => ?_) _ _ _
  unfold cbFlush
  split_ifs <;> rfl

theorem fatRead_isSome (node : FatNode) (size offset : ℕ) (m : FatMem σ) :
    (fatRead dev G node size offset m).isSome := by
  unfold fatRead
  by_cases htype : node.type ≠ .file
  · rw [if_pos htype]
    rfl
  by_cases hend : node.size ≤ u32 offset
  · rw [if_neg htype, if_pos hend]
    rfl
  by_cases hempty : node.inode = 0
  · simp only [if_neg htype, if_neg hend, if_pos hempty]
    rfl
  simp only [if_neg htype, if_neg hend, if_neg hempty]
  have hwalk : (fatWalkChain dev G 0 false (u32 offset / G.bytesPerCluster) node.inode m).isSome :=
    fatWalkChain_isSome 0 false (fun h => by cases h) _ _ _
  obtain ⟨r, hr⟩ := Option.isSome_iff_exists.1 hwalk
  simp only [fatSkip_eq, hr, Option.bind_eq_bind, Option.bind_some]
  by_cases hc : r.1 = 0
  · rw [if_pos hc]
    rfl
  · rw [if_neg hc, Option.isSome_bind]
    simp only [Option.isSome_some, Option.any_true, readClusters_isSome]

theorem fatWrite_isSome {fuel : ℕ} (halloc : ∀ m, (fatAllocCluster dev G fuel m).isSome)
    (node : FatNode) (buf : ℕ → UInt8) (size offset : ℕ) (m : FatMem σ) :
    (fatWrite dev G fuel node buf size offset m).isSome := by
  unfold fatWrite
  by_cases htype : node.type ≠ .file
  · rw [if_pos htype]
    rfl
  have hfirst : (firstOrNew dev G fuel node.inode m).isSome := by
    unfold firstOrNew
    split_ifs
    · exact halloc m
    · rfl
  obtain ⟨⟨c, m₁⟩, h₁⟩ := Option.isSome_iff_exists.1 hfirst
  simp only [if_neg htype, h₁, Option.bind_eq_bind, Option.bind_some]
  split_ifs
  · rfl
  · obtain ⟨⟨x, m₂⟩, h₂⟩ := Option.isSome_iff_exists.1 (fatWalkChain_isSome fuel
      true (fun _ => halloc) (u32 offset / G.bytesPerCluster) c m₁)
    simp only [fatSkip_eq, h₂, Option.bind_some]
    split_ifs
    · rfl
    · obtain ⟨⟨ok, done, m₃⟩, h₃⟩ := Option.isSome_iff_exists.1 (writeClusters_isSome halloc buf size
        (u32 (G.totalClusters + 2)) x (u32 offset % G.bytesPerCluster) 0 m₂)
      have hflush : (fatFlushDirent dev G node.parent node.name (max node.size (u32 (u32 offset + done))) c m₃).isSome :=
        fatFlushDirent_isSome _ _ _ _ _
      obtain ⟨m₄, h₄⟩ := Option.isSome_iff_exists.1 hflush
      simp only [h₃, Option.bind_some]
      split_ifs
      · rfl
      · rw [h₄]
        rfl

end Device

/-! ### Which calls return -/

/-- The disk on which `fat_mkdir` looks for a place for its entry: cluster `c` is allocated, and
holds the entries `.` and `..`. -/
def FatState.prepared (G : FatState) (d : Disk) (c dir : ℕ) : Disk :=
  Function.update (G.claim d c) (G.fatClusterToLba c) (dotSector c dir)

/-- The search of `fat_create` for a place for a new entry ends: the name is found, or there is
no cluster for a new directory, or the search comes to an end on the disk before it. -/
def CreateEnds (G : FatState) (m : FatMem Disk) (dir : ℕ) (name : Bytes) : VfsType → Prop
  | .file => (G.lookup m dir name).isSome ∨ GrowthEnds G m.dev dir
  | .dir => (G.lookup m dir name).isSome ∨
      ∀ c, G.firstFree m.dev = some c → GrowthEnds G (G.prepared m.dev c dir) dir

/-- The calls that return. -/
def FatOp.Ends (G : FatState) (m : FatMem Disk) : FatOp → Prop
  | .create dir name type => CreateEnds G m dir name type
  | .mkdir dir name => CreateEnds G m dir name .dir
  | _ => True

theorem fatCreate_returns (hlast : G.lastCluster + 1 < 2 ^ 32) (fuel dir : ℕ) (name : Bytes)
    (type : VfsType) (m : FatMem Disk) :
    ((fatCreate Disk.dev G fuel dir name type m).isSome → CreateEnds G m dir name type) ∧
      (G.lastCluster + 2 ≤ fuel → CreateEnds G m dir name type →
        (fatCreate Disk.dev G fuel dir name type m).isSome) := by
  obtain ⟨l, hlookup⟩ := fatLookupIn_eq (G := G) dir name m
  unfold fatCreate
  simp only [hlookup, Option.bind_eq_bind, Option.bind_some, Option.isSome_map]
  by_cases hfound : (G.lookup m dir name).isSome
  · rw [if_pos hfound]
    cases type with
    | file => exact ⟨fun _ => Or.inl hfound, fun _ _ => rfl⟩
    | dir => exact ⟨fun _ => Or.inl hfound, fun _ _ => rfl⟩
  · rw [if_neg hfound]
    cases type with
    | file =>
        obtain ⟨h₁, h₂⟩ := addEntry_returns (G := G) fuel dir (newDirent (fatNameFromDot name) 0 0)
          ⟨m.dev, l⟩
        exact ⟨fun h => Or.inr (h₁ h), fun hfuel h => h₂ hlast hfuel (h.resolve_left hfound)⟩
    | dir =>
        have hgrow := fun c => addEntry_returns (G := G) fuel dir
          (newDirent (fatNameFromDot name) 0x10 c) ⟨G.prepared m.dev c dir, l⟩
        have hclaim : ∀ c, allocated G ⟨m.dev, l⟩ (some c) = (c, ⟨G.claim m.dev c, l⟩) := fun c => rfl
        have hpos : ∀ {c}, G.firstFree m.dev = some c → c ≠ 0 := fun hc => by
          have := FatState.freeFrom_eq_some hc
          omega
        refine ⟨fun h => Or.inr fun c hc => ?_, fun hfuel h => ?_⟩
        · obtain ⟨r, hr⟩ := Option.isSome_iff_exists.1 h
          obtain ⟨r', hr', hrest⟩ := Option.bind_eq_some_iff.1 hr
          obtain rfl := fatAllocCluster_some hlast hr'
          rw [hc, hclaim] at hrest
          dsimp only at hrest
          rw [if_neg (hpos hc), writeSector_disk] at hrest
          exact (hgrow c).1 (Option.isSome_iff_exists.2 ⟨r, hrest⟩)
        · rw [fatAllocCluster_returns hlast (by omega), Option.bind_some]
          cases hc : G.firstFree m.dev with
          | none => rfl
          | some c =>
              rw [hclaim]
              dsimp only
              rw [if_neg (hpos hc), writeSector_disk]
              exact (hgrow c).2 hlast hfuel ((h.resolve_left hfound) c hc)

theorem fatRun_returns (hfats : 0 < G.numFats) (hlast : G.lastCluster + 1 < 2 ^ 32) (fuel : ℕ)
    (op : FatOp) (m : FatMem Disk) :
    ((fatRun Disk.dev G fuel op m).isSome → op.Ends G m) ∧
      (G.lastCluster + 2 ≤ fuel → op.Ends G m → (fatRun Disk.dev G fuel op m).isSome) := by
  unfold fatRun
  cases op with
  | finddir room dir name =>
      refine ⟨fun _ => trivial, fun _ _ => ?_⟩
      obtain ⟨l, h⟩ := fatFinddir_eq (G := G) room dir name m
      dsimp only
      rw [h]
      rfl
  | readdir dir index =>
      refine ⟨fun _ => trivial, fun _ _ => ?_⟩
      dsimp only
      rw [Option.isSome_map, fatReaddir, Option.isSome_map]
      refine dirWalk_isSome (fun e lba off a m a' m' h => ?_) (fun e lba off a m => ?_) _ _ _
      · unfold cbReaddir at h
        split_ifs at h <;> cases h <;> rfl
      · unfold cbReaddir
        split_ifs <;> rfl
  | read node size offset =>
      refine ⟨fun _ => trivial, fun _ _ => ?_⟩
      dsimp only
      rw [Option.isSome_map]
      exact fatRead_isSome node size offset m
  | write node buf size offset =>
      refine ⟨fun _ => trivial, fun hfuel _ => ?_⟩
      dsimp only
      rw [Option.isSome_map]
      exact fatWrite_isSome (fatAllocCluster_isSome hlast (by omega)) node buf size offset m
  | create dir name type =>
      dsimp only
      rw [Option.isSome_map]
      exact fatCreate_returns hlast fuel dir name type m
  | mkdir dir name =>
      dsimp only
      rw [Option.isSome_map]
      exact fatCreate_returns hlast fuel dir name .dir m
  | unlink dir name =>
      refine ⟨fun _ => trivial, fun hfuel _ => ?_⟩
      have h := congrArg Option.isSome (fatUnlink_eq (G := G) fuel dir name m)
      rw [Option.isSome_map] at h
      dsimp only
      rw [Option.isSome_map, h]
      cases G.keyed m dir name with
      | none => rfl
      | some e =>
          rw [Option.elim_some, Option.isSome_map]
          split_ifs
          · have := FatState.card_linked_le (G := G) (d := m.dev)
            exact FatState.freeChain_isSome hfats (by omega)
          · rfl

end Returns

end LighthOS
