/-
# Calls that fail and clusters that stay allocated

`fat_create`, `fat_mkdir` and `fat_write` allocate before they know that the rest of the
call can succeed, and give nothing back.  A file can be created without an allocation of
its own, so `fat_create` leaves everything as it was where it fails.  `fat_mkdir` takes a
cluster for the new directory first: if the directory that it is to be put into is full
and cannot grow, the cluster is lost.  `fat_write` puts clusters behind the file until it
reaches the offset; if the volume has too few, it fails and leaves them all there.

`leaksNothing_iff` says for which calls a failure changes nothing, on every volume with
cluster ownership; in `fatWrite_leaks` a failed write takes every cluster of the volume.
-/

import LighthOS.Fs.FatFile

namespace LighthOS

namespace FatState

/-- From `d` to `d'` the same clusters are free, and the directories of `d` have the same slots. -/
structure Untouched (G : FatState) (d d' : Disk) : Prop where
  table : ∀ x, G.Valid x → (G.entryAt d' x = 0 ↔ G.entryAt d x = 0)
  dirs : ∀ q, ReachDir G d q → G.dirSlots d' q = G.dirSlots d q

variable {G : FatState} {d d' : Disk} {m m' : FatMem Disk} {p c : ℕ} {name : Bytes} {l : List ℕ}

theorem Untouched.refl (G : FatState) (d : Disk) : Untouched G d d := ⟨fun _ _ => Iff.rfl, fun _ _ => rfl⟩

/-! ### A new directory -/

/-- What `fat_mkdir` does with the cluster of a new directory stays in this cluster. -/
theorem only_prepared (hG : GeoOk G) (hc : G.Valid c) : Only G d (G.prepared d c p) [c] :=
  (only_claim hG hc).update hG List.mem_cons_self (fatClusterToLba_mem hG.perCluster c)

theorem entryAt_prepared (hG : GeoOk G) (hc : G.Valid c) : G.entryAt (G.prepared d c p) c ≠ 0 := by
  have hlba := fatClusterToLba_mem hG.perCluster c
  have ht := hG.cluster_not_inTable hc hlba
  have hsame : G.entryAt (G.prepared d c p) c = G.entryAt (G.claim d c) c :=
    hG.entryAt_update ht hc.2
  rw [hsame]
  exact ((isChain_claim hG hc).used c (by simp)).2

section

variable (hG : GeoOk G) (hown : ClusterOwnership G d) (hc : G.Valid c) (hfree : G.entryAt d c = 0)
include hG hown hc hfree

/-- The directories stay as they are. -/
theorem dirSlots_prepared {q : ℕ} (hq : ReachDir G d q) : G.dirSlots (G.prepared d c p) q = G.dirSlots d q := by
  refine dirSlots_only hG (only_prepared hG hc) (hown.owned.dir_chain hq) fun k hk x hx hmem => ?_
  obtain rfl := List.mem_singleton.1 hmem
  exact (hk.used x hx).2 hfree

/-- The search for the end of a directory ends. -/
theorem growthEnds_prepared (hp : ReachDir G d p) : GrowthEnds G (G.prepared d c p) p := by
  refine Or.inr (Or.inr ?_)
  rcases hown.owned.dir_chain hp with rfl | ⟨k, hk⟩
  · exact ⟨0, rfl⟩
  · refine IsChain.chainEnds (hk.congr fun x hx => (only_prepared hG hc).entries x (IsChain.valid hk hx) ?_)
    rintro hmem
    obtain rfl := List.mem_singleton.1 hmem
    exact (hk.used x hx).2 hfree

end

/-- The free clusters once one is taken. -/
theorem freeClusters_prepared (hG : GeoOk G) (hc : G.Valid c) :
    G.freeClusters (G.prepared d c p) = (G.freeClusters d).erase c := by
  ext x
  rw [Finset.mem_erase, mem_freeClusters, mem_freeClusters]
  by_cases hxc : x = c
  · subst hxc
    exact ⟨fun h => absurd h.2 (entryAt_prepared hG hc), fun h => absurd rfl h.1⟩
  · constructor
    · rintro ⟨hv, h₀⟩
      rw [(only_prepared hG hc).entries x hv (by simpa using hxc)] at h₀
      exact ⟨hxc, hv, h₀⟩
    · rintro ⟨-, hv, h₀⟩
      refine ⟨hv, ?_⟩
      rw [(only_prepared hG hc).entries x hv (by simpa using hxc)]
      exact h₀

/-- **The second half of `fat_create`** fails where the directory is full and cannot grow, and then
changes nothing. -/
theorem addEntry_result (hlast : G.lastCluster + 1 < 2 ^ 32) {ent : Dirent} {fuel : ℕ} {r : ℤ}
    (hf : addEntry Disk.dev G fuel p ent m = some (r, m')) :
    (r = -1 ∧ m'.dev = m.dev ∧ ¬HasRoom G m.dev p ∧ (isRootDir G p = true ∨ G.firstFree m.dev = none)) ∨
      (r = 0 ∧ (HasRoom G m.dev p ∨ isRootDir G p = false ∧ G.firstFree m.dev ≠ none)) := by
  have hroom : ∀ {o : Option Entry}, G.freeSlot m p = o → (HasRoom G m.dev p ↔ o.isSome = true) := by
    rintro o rfl
    exact (freeSlot_isSome m p).symm
  have hway := addEntry_way hlast hf
  generalize m'.dev = d at hway
  cases hway with
  | slot hfree => exact Or.inr ⟨rfl, Or.inl ((hroom hfree).2 rfl)⟩
  | full hfree hno => exact Or.inl ⟨rfl, rfl, fun h => Bool.false_ne_true ((hroom hfree).1 h), hno⟩
  | grown _ hroot _ _ hc => exact Or.inr ⟨rfl, Or.inr ⟨hroot, by rw [hc]; exact Option.some_ne_none _⟩⟩

/-! ### The calls -/

/-- A call that may allocate clusters. -/
inductive AllocCall where
  | create (dir : ℕ) (name : Bytes) (type : VfsType)
  | mkdir (dir : ℕ) (name : Bytes)
  | write (node : FatNode) (buf : ℕ → UInt8) (size offset : ℕ)

/-- The result of a call, and the state after it. -/
def AllocCall.run (G : FatState) (fuel : ℕ) (m : FatMem Disk) : AllocCall → Option (ℤ × FatMem Disk)
  | .create dir name type => fatCreate Disk.dev G fuel dir name type m
  | .mkdir dir name => fatMkdir Disk.dev G fuel dir name m
  | .write node buf size offset =>
      (fatWrite Disk.dev G fuel node buf size offset m).map fun (r, _, m') => (r, m')

/-- The calls on directories and files of a volume. -/
def AllocCall.OnVolume (G : FatState) (d : Disk) : AllocCall → Prop
  | .create dir _ _ => ReachDir G d dir
  | .mkdir dir _ => ReachDir G d dir
  | .write node _ _ _ => node.type = .file → ∃ l, FileNode G d node l

/-- **A failure changes nothing**: the call returns, and if it returns `-1` the same clusters are
allocated and the directories are as before. -/
def LeaksNothing (G : FatState) (m : FatMem Disk) (call : AllocCall) : Prop :=
  ∀ fuel, G.lastCluster + 2 ≤ fuel →
    ∃ r m', call.run G fuel m = some (r, m') ∧ (r = -1 → Untouched G m.dev m'.dev)

/-- The new directories that find a place, or no cluster: the name is taken, no cluster is free, the
directory has a free slot, or it can grow by a second free cluster. -/
def DirFits (G : FatState) (m : FatMem Disk) (dir : ℕ) (name : Bytes) : Prop :=
  (G.lookup m dir name).isSome ∨ G.freeClusters m.dev = ∅ ∨ HasRoom G m.dev dir ∨
    isRootDir G dir = false ∧ 2 ≤ (G.freeClusters m.dev).card

/-- The writes that find no cluster, or enough to reach the offset. -/
def OffsetFits (G : FatState) (d : Disk) (node : FatNode) (offset : ℕ) : Prop :=
  G.freeClusters d = ∅ ∨ u32 offset / G.bytesPerCluster <
    (G.clustersFrom d G.lastCluster node.inode).length + (G.freeClusters d).card

/-- The calls that need not give anything back. -/
def AllocCall.Fits (G : FatState) (m : FatMem Disk) : AllocCall → Prop
  | .create dir name type => type = .dir → DirFits G m dir name
  | .mkdir dir name => DirFits G m dir name
  | .write node _ _ offset => node.type = .file → OffsetFits G m.dev node offset

theorem growthEnds_of_reachDir (hown : ClusterOwnership G m.dev) (hp : ReachDir G m.dev p) : GrowthEnds G m.dev p := by
  refine Or.inr (Or.inr ?_)
  rcases hown.owned.dir_chain hp with rfl | ⟨k, hk⟩
  · exact ⟨0, rfl⟩
  · exact IsChain.chainEnds hk

theorem fatCreate_isSome (hG : GeoOk G) (hown : ClusterOwnership G m.dev) (hp : ReachDir G m.dev p) (type : VfsType) {fuel : ℕ} (hfuel : G.lastCluster + 2 ≤ fuel) :
    (fatCreate Disk.dev G fuel p name type m).isSome := by
  refine (fatCreate_returns hG.lastCluster_succ fuel p name type m).2 hfuel ?_
  cases type with
  | file => exact Or.inr (growthEnds_of_reachDir hown hp)
  | dir =>
      refine Or.inr fun c hc => ?_
      obtain ⟨h₂, hle, h₀⟩ := freeFrom_eq_some hc
      exact growthEnds_prepared hG hown ⟨h₂, hle⟩ h₀ hp

/-- **New files**: a failure of `fat_create` changes nothing. -/
theorem fatCreate_file_untouched (hG : GeoOk G) {fuel : ℕ} {r : ℤ}
    (hf : fatCreate Disk.dev G fuel p name .file m = some (r, m')) (hr : r = -1) : Untouched G m.dev m'.dev := by
  cases fatCreate_way hG.lastCluster_succ hf with
  | found _ => exact .refl G m.dev
  | file _ hadd =>
      rcases addEntry_result hG.lastCluster_succ hadd with ⟨-, hd, -⟩ | ⟨hr', -⟩
      · rw [hd]
        exact .refl G m.dev
      · omega

/-- **New directories**: a failure of `fat_create` changes nothing exactly where the new directory
finds a place, or no cluster. -/
theorem fatCreate_dir_iff (hG : GeoOk G) (hown : ClusterOwnership G m.dev) (hp : ReachDir G m.dev p) {fuel : ℕ} {r : ℤ}
    (hf : fatCreate Disk.dev G fuel p name .dir m = some (r, m')) :
    (r = -1 → Untouched G m.dev m'.dev) ↔ DirFits G m p name := by
  cases fatCreate_way hG.lastCluster_succ hf with
  | found hfound => exact ⟨fun _ => Or.inl (by rw [hfound]; rfl), fun _ _ => .refl G m.dev⟩
  | full _ hff => exact ⟨fun _ => Or.inr (Or.inl (freeClusters_eq_empty.2 hff)), fun _ _ => .refl G m.dev⟩
  | @dir _ _ lfn c hfound hff hrest =>
      obtain ⟨h₂, hle, h₀⟩ := freeFrom_eq_some hff
      have hc : G.Valid c := ⟨h₂, hle⟩
      have hmem : c ∈ G.freeClusters m.dev := mem_freeClusters.2 ⟨hc, h₀⟩
      have hslots : G.dirSlots (G.prepared m.dev c p) p = G.dirSlots m.dev p := dirSlots_prepared hG hown hc h₀ hp
      have hroom : HasRoom G (G.prepared m.dev c p) p ↔ HasRoom G m.dev p := by rw [HasRoom, HasRoom, hslots]
      have hone : G.firstFree (G.prepared m.dev c p) = none ↔ (G.freeClusters m.dev).card = 1 := by
        rw [← freeClusters_eq_empty, freeClusters_prepared hG hc, ← Finset.card_eq_zero, Finset.card_erase_of_mem hmem]
        have := Finset.card_pos.2 ⟨c, hmem⟩
        omega
      have hpos := Finset.card_pos.2 ⟨c, hmem⟩
      have hres := addEntry_result (m := ⟨G.prepared m.dev c p, lfn⟩) hG.lastCluster_succ hrest
      simp only [ne_eq, hroom, hone] at hres
      unfold DirFits
      rcases hres with ⟨hr, hd, hfull, hgrow⟩ | ⟨hr, hplace⟩
      · -- the cluster is allocated, and nothing names it
        constructor
        · intro hun
          have htable := (hun hr).table c hc
          rw [hd] at htable
          exact absurd (htable.2 h₀) (entryAt_prepared hG hc)
        · rintro (h | h | h | ⟨h, hcard⟩)
          · rw [hfound] at h
            cases h
          · rw [h] at hmem
            cases hmem
          · exact absurd h hfull
          · rcases hgrow with hgrow | hgrow
            · rw [h] at hgrow
              cases hgrow
            · omega
      · refine ⟨fun _ => Or.inr (Or.inr ?_), fun _ h => by omega⟩
        exact hplace.imp_right fun h => ⟨h.1, by have := h.2; omega⟩

/-- **Writes**: a failure changes nothing exactly where no cluster is free, or the call does not
fail. -/
theorem fatWrite_untouched_iff (hG : GeoOk G) (hown : ClusterOwnership G m.dev) {node node' : FatNode}
    (hn : FileNode G m.dev node l) {fuel size offset : ℕ} {buf : ℕ → UInt8} {r : ℤ} (hf : fatWrite Disk.dev G fuel node buf size offset m = some (r, node', m')) :
    (r = -1 → Untouched G m.dev m'.dev) ↔ OffsetFits G m.dev node offset := by
  have hclusters : G.clustersFrom m.dev G.lastCluster node.inode = l := by
    rcases hn.chain with ⟨h₀, rfl⟩ | hl
    · rw [h₀, clustersFrom_zero]
    · exact hl.clustersFrom_eq hl.length_lt
  unfold OffsetFits
  rw [hclusters]
  rcases fatWrite_file hG hown hn hf with ⟨hr, hshort⟩ | ⟨new, done, hr, -, -, hreach, hroom, -, -⟩
  · have hfit : ¬u32 offset / G.bytesPerCluster < l.length + (G.freeClusters m.dev).card := by omega
    rw [or_iff_left hfit]
    rcases fatWrite_written hG hn.type hn.chain hf with ⟨-, hfree, -, hfail⟩ |
      ⟨h, new, done, d₁, hr', -⟩
    · constructor
      · -- all free clusters were put behind the file
        intro hun
        refine freeClusters_eq_empty.2 (freeFrom_eq_none.2 fun x h₂ hle h₀ => ?_)
        exact freeFrom_eq_none.1 hfree x h₂ hle (((hun hr).table x ⟨h₂, hle⟩).2 h₀)
      · intro hempty _
        rcases hfail with ⟨hm, -⟩ | ⟨h, new, hhead, hw, -⟩
        · rw [hm]
          exact .refl G m.dev
        · obtain ⟨X, -, -, -, -, hslots⟩ := hn.owned hG hown.owned hn.parent hhead hw
          have hfree' := hw.freeClusters_eq hn.used
          rw [hempty, Finset.empty_sdiff] at hfree'
          refine ⟨fun x hx => ?_, hslots⟩
          have hold : x ∉ G.freeClusters m.dev := by rw [hempty]; exact Finset.notMem_empty x
          have hnew : x ∉ G.freeClusters m'.dev := by rw [hfree']; exact Finset.notMem_empty x
          rw [mem_freeClusters, not_and] at hold hnew
          exact iff_of_false (hnew hx) (hold hx)
    · omega
  · exact ⟨fun _ => Or.inr (by omega), fun _ h => by omega⟩

theorem fatCreate_type_iff (hG : GeoOk G) (hown : ClusterOwnership G m.dev) (hp : ReachDir G m.dev p) {type : VfsType}
    {fuel : ℕ} {r : ℤ} (hf : fatCreate Disk.dev G fuel p name type m = some (r, m')) :
    (r = -1 → Untouched G m.dev m'.dev) ↔ (type = .dir → DirFits G m p name) := by
  cases type with
  | file => exact ⟨fun _ h => absurd h (by decide), fun _ => fatCreate_file_untouched hG hf⟩
  | dir => exact (fatCreate_dir_iff hG hown hp hf).trans ⟨fun h _ => h, fun h => h rfl⟩

theorem LeaksNothing.iff_of_run {call : AllocCall} {P : Prop}
    (hrun : ∀ fuel, G.lastCluster + 2 ≤ fuel → (call.run G fuel m).isSome)
    (hiff : ∀ fuel r m', call.run G fuel m = some (r, m') → ((r = -1 → Untouched G m.dev m'.dev) ↔ P)) :
    LeaksNothing G m call ↔ P := by
  constructor
  · intro hleak
    obtain ⟨r, m', hr, hun⟩ := hleak _ (Nat.le_refl _)
    exact (hiff _ r m' hr).1 hun
  · intro hP fuel hfuel
    obtain ⟨⟨r, m'⟩, hr⟩ := Option.isSome_iff_exists.1 (hrun fuel hfuel)
    exact ⟨r, m', hr, (hiff _ r m' hr).2 hP⟩

end FatState

open FatState

/-- **Failures and clusters.**  On a volume with cluster ownership, a failure of `fat_create`,
`fat_mkdir` or `fat_write` changes neither the allocated clusters nor a directory exactly for the
calls that need not give anything back. -/
theorem leaksNothing_iff (G : FatState) (hG : GeoOk G) (m : FatMem Disk) (hown : ClusterOwnership G m.dev)
    (call : AllocCall) (hcall : call.OnVolume G m.dev) : LeaksNothing G m call ↔ call.Fits G m := by
  cases call with
  | create dir name type =>
      exact LeaksNothing.iff_of_run (fun fuel hfuel => fatCreate_isSome hG hown hcall type hfuel)
        fun fuel r m' hf => fatCreate_type_iff hG hown hcall hf
  | mkdir dir name =>
      exact LeaksNothing.iff_of_run (fun fuel hfuel => fatCreate_isSome hG hown hcall .dir hfuel)
        fun fuel r m' hf => fatCreate_dir_iff hG hown hcall hf
  | write node buf size offset =>
      refine LeaksNothing.iff_of_run (fun fuel hfuel => ?_) fun fuel r m' hf => ?_
      · rw [AllocCall.run, Option.isSome_map]
        exact fatWrite_isSome (fatAllocCluster_isSome hG.lastCluster_succ (show G.lastCluster < fuel by omega)) node buf size offset m
      · obtain ⟨⟨r', node', m''⟩, hwrite, heq⟩ := Option.map_eq_some_iff.1 hf
        obtain ⟨rfl, rfl⟩ := Prod.mk.inj heq
        by_cases htype : node.type = .file
        · obtain ⟨l, hn⟩ := hcall htype
          exact (fatWrite_untouched_iff hG hown hn hwrite).trans ⟨fun h _ => h, fun h => h htype⟩
        · unfold fatWrite at hwrite
          rw [if_pos htype] at hwrite
          obtain ⟨-, heq⟩ := Prod.mk.inj (Option.some.inj hwrite)
          obtain ⟨-, rfl⟩ := Prod.mk.inj heq
          exact ⟨fun _ h => absurd h htype, fun _ _ => .refl G m.dev⟩

/-- The hypotheses of `leaksNothing_iff` are satisfiable: a directory is made on a small volume with a
file. -/
theorem leaksNothing_iff_small : ∃ m, ClusterOwnership smallFat m.dev ∧ LeaksNothing smallFat m (.mkdir 0 [98]) := by
  obtain ⟨st, hst, -⟩ := fileOfFive_node
  have hown := volRun_ownership hst
  have hrun : fileOfFive.any (fun st => (smallFat.freeSlot st.mem 0).isSome) = true := by decide +kernel
  rw [hst, Option.any_some] at hrun
  exact ⟨st.mem, hown, (leaksNothing_iff smallFat geoOk_smallFat st.mem hown (.mkdir 0 [98]) .root).2
    (Or.inr (Or.inr (Or.inl ((freeSlot_isSome st.mem 0).1 hrun))))⟩

/-- **A write that fails takes all clusters.**  On a volume of 61 clusters with a file in one of them,
one byte is written behind the end of what the volume can hold: the call returns `-1`, and all
clusters are in use. -/
theorem fatWrite_leaks : ∃ m node node' m' buf, ClusterOwnership smallFat m.dev ∧ FileNode smallFat m.dev node [2] ∧
    fatWrite Disk.dev smallFat 64 node buf 1 (61 * 512) m = some (-1, node', m') ∧
    (∀ x, smallFat.Valid x → (smallFat.entryAt m.dev x = 0 ↔ x ≠ 2)) ∧
    (∀ x, smallFat.Valid x → smallFat.entryAt m'.dev x ≠ 0) ∧
    ¬LeaksNothing smallFat m (.write node buf 1 (61 * 512)) := by
  obtain ⟨st, hst, x, -, -, hn⟩ := fileOfFive_node
  have hown := volRun_ownership hst
  have hrun : fileOfFive.any (fun st => (List.range 63).all fun x => decide
      (smallFat.Valid x → (smallFat.entryAt st.mem.dev x = 0 ↔ x ≠ 2))) = true := by
    decide +kernel
  rw [hst, Option.any_some] at hrun
  have hfree : ∀ x, smallFat.Valid x → (smallFat.entryAt st.mem.dev x = 0 ↔ x ≠ 2) := fun x hx =>
    of_decide_eq_true (List.all_eq_true.1 hrun x (List.mem_range.2 (Nat.lt_succ_of_le hx.2))) hx
  have hset : smallFat.freeClusters st.mem.dev = Finset.Icc 3 62 := by
    ext x
    rw [mem_freeClusters, Finset.mem_Icc]
    have hlast : smallFat.lastCluster = 62 := by decide
    constructor
    · rintro ⟨hx, h₀⟩
      have := (hfree x hx).1 h₀
      exact ⟨by omega, hlast ▸ hx.2⟩
    · rintro ⟨h₃, hle⟩
      have hx : smallFat.Valid x := ⟨by omega, by rwa [hlast]⟩
      exact ⟨hx, (hfree x hx).2 (by omega)⟩
  -- the file and the free clusters are 61, and the offset is in the one behind them
  have hshort : u32 (61 * 512) / smallFat.bytesPerCluster = 61 := by decide
  have hcard : (smallFat.freeClusters st.mem.dev).card = 60 := by
    rw [hset]
    decide
  have hreturns : (fatWrite Disk.dev smallFat 64 (nodeOf true 0 [97] x.raw) (fun _ => 7) 1 (61 * 512) st.mem).isSome :=
    fatWrite_isSome (fatAllocCluster_isSome geoOk_smallFat.lastCluster_succ (by decide)) _ _ _ _ _
  obtain ⟨⟨r, node', m'⟩, hf⟩ := Option.isSome_iff_exists.1 hreturns
  rcases fatWrite_file geoOk_smallFat hown hn hf with ⟨rfl, -⟩ | ⟨new, done, -, -, -, hreach, hroom, -, -⟩
  swap
  · rw [hcard, List.length_singleton] at hroom
    omega
  have hfull : ∀ x, smallFat.Valid x → smallFat.entryAt m'.dev x ≠ 0 := by
    rcases fatWrite_written geoOk_smallFat hn.type hn.chain hf with ⟨-, hnone, -⟩ | ⟨h, new, done, d₁, hr, -⟩
    · exact fun x hx => freeFrom_eq_none.1 hnone x hx.1 hx.2
    · omega
  refine ⟨st.mem, _, node', m', _, hown, hn, hf, hfree, hfull, fun hleak => ?_⟩
  obtain ⟨r, m'', hr, hun⟩ := hleak 64 (by decide)
  rw [AllocCall.run, hf, Option.map_some] at hr
  obtain ⟨rfl, rfl⟩ := Prod.mk.inj (Option.some.inj hr)
  have h₃ := (hfree 3 (by decide)).2 (by decide)
  exact hfull 3 (by decide) (((hun rfl).table 3 (by decide)).2 h₃)

end LighthOS
