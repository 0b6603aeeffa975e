/-
# The operations on a FAT volume

`fat_create`, `fat_mkdir`, `fat_unlink` and `fat_write` on a volume that only this driver
has written to (`FatState.Volume`), on a device without errors: each keeps the volume one,
also where it runs out of clusters on its way.

`fat_create` stores the new entry in the first free slot of the directory; if there is
none, a free cluster is cleared and put behind the directory first (`Volume.grow`), which
adds free slots to its list and no entry.  `fat_unlink` first gives back the clusters of
the entry and then marks its slot.  `fat_write` puts clusters behind the chain of the
file, and then stores its size and first cluster in the entry that has its 8.3 name.
-/

import LighthOS.Fs.FatVolume
import LighthOS.Fs.FatReturns

namespace LighthOS

namespace FatState

/-- From `d` to `d'` the chains of `H` and their sectors are as before. -/
def Kept (G : FatState) (d d' : Disk) (H : Set ℕ) : Prop :=
  ∀ h ∈ H, ∀ l, G.IsChain d h l → G.IsChain d' h l ∧ ∀ lba, G.InClusters l lba → d' lba = d lba

variable {G : FatState} {d d' d'' : Disk} {D X H : Set ℕ} {p q c h x : ℕ} {l as bs : List ℕ} {s t : Slot}
  {e : Dirent} {m m' : FatMem Disk} {name : Bytes}

theorem Kept.refl (d : Disk) (H : Set ℕ) : Kept G d d H := fun _ _ _ hl => ⟨hl, fun _ _ => rfl⟩

theorem Kept.trans (h₁ : Kept G d d' H) (h₂ : Kept G d' d'' H) : Kept G d d'' H := by
  intro h hh l hl
  obtain ⟨hl', hs⟩ := h₁ h hh l hl
  obtain ⟨hl'', hs'⟩ := h₂ h hh l hl'
  exact ⟨hl'', fun lba hlba => (hs' lba hlba).trans (hs lba hlba)⟩

theorem Kept.mono {H' : Set ℕ} (hk : Kept G d d' H) (hH : H' ⊆ H) : Kept G d d' H' :=
  fun h hh => hk h (hH hh)

/-- A call that stays in clusters of its own keeps the chains that have none of them. -/
theorem Kept.of_only (hG : GeoOk G) {K : List ℕ} (ho : Only G d d' K)
    (hdis : ∀ h ∈ H, ∀ l, G.IsChain d h l → l.Disjoint K) : Kept G d d' H := by
  intro h hh l hl
  refine ⟨IsChain.congr hl fun x hx => ho.entries x (IsChain.valid hl hx) fun hxK => hdis h hh l hl hx hxK, ?_⟩
  rintro lba ⟨y, hy, hlba⟩
  refine ho.sectors lba (hG.cluster_not_inTable (IsChain.valid hl hy) hlba) ?_
  rintro ⟨z, hz, hlba'⟩
  obtain rfl := hG.cluster_unique (IsChain.valid hl hy) (ho.valid z hz) hlba hlba'
  exact hdis h hh l hl hy hz

/-- A store to a slot of a directory keeps all other chains. -/
theorem Owned.setSlot_kept (hG : GeoOk G) (ho : Owned G d D X) (hp : p ∈ D) (hs : s ∈ G.dirSlots d p)
    (hH : H ⊆ (G.heads d D ∪ X) \ {p}) (hk : Kept G d d' H) (e : Dirent) : Kept G d (d'.setSlot s e) H := by
  obtain ⟨hlba, -, -⟩ := mem_dirSlots.1 hs
  have ht := dirLbas_not_inTable hG (ho.dir_chain hp) hlba
  intro h hh l hl
  obtain ⟨hl', hsec⟩ := hk h hh l hl
  obtain ⟨hhead, hhp⟩ := hH hh
  refine ⟨IsChain.congr hl' fun x hx => hG.entryAt_update ht (IsChain.valid hl hx).2, fun lba hmem => ?_⟩
  rw [← hsec lba hmem]
  refine Function.update_of_ne (fun he : lba = s.lba => ?_) _ _
  exact dirLbas_apart hG (ho.dir_chain hp) (fun x hx => IsChain.valid hl hx)
    (fun k hk => ho.dir_apart hp hhead (fun he => hhp he.symm) hl hk) hlba (he ▸ hmem)

/-! ### Growing a directory -/

theorem slot_zeroSector (off : ℕ) : zeroSector.slot off = fun _ => 0 := by
  funext i
  unfold Sector.slot zeroSector
  split_ifs <;> rfl

theorem raw_of_zero {lba : ℕ} (hz : d lba = zeroSector) (hs : s ∈ sectorSlots d lba) : s.raw = fun _ => 0 := by
  obtain ⟨-, -, hraw⟩ := mem_sectorSlots.1 hs
  rw [hraw, hz, slot_zeroSector]

/-- The slots of a cluster that was cleared. -/
def clearedSlots (G : FatState) (c : ℕ) (rest : List Slot) : List Slot :=
  ⟨G.fatClusterToLba c, 0, fun _ => 0⟩ :: ⟨G.fatClusterToLba c, 32, fun _ => 0⟩ :: rest

theorem clusterSlots_zero (hG : GeoOk G) (hz : ∀ lba ∈ G.clusterLbas c, d lba = zeroSector) :
    ∃ rest, (G.clusterLbas c).flatMap (sectorSlots d) = G.clearedSlots c rest ∧
      ∀ s ∈ G.clearedSlots c rest, s.raw = fun _ => 0 := by
  obtain ⟨n, hn⟩ := Nat.exists_eq_add_of_lt hG.perCluster
  have hlbas : G.clusterLbas c = G.fatClusterToLba c ::
      (List.range' 1 n).map fun s => u32 (G.fatClusterToLba c + s) := by
    rw [clusterLbas, hn, Nat.zero_add, List.range_eq_range', List.range'_succ, List.map_cons, Nat.add_zero]
    exact congrArg (· :: _) (u32_of_lt (u32_lt _))
  have hall : ∀ s ∈ (G.clusterLbas c).flatMap (sectorSlots d), s.raw = fun _ => 0 := by
    intro s hs
    obtain ⟨lba, hlba, hs⟩ := List.mem_flatMap.1 hs
    exact raw_of_zero (hz lba hlba) hs
  have hslot : ∀ off, (d (G.fatClusterToLba c)).slot off = fun _ => 0 := fun off => by
    rw [hz _ (by rw [hlbas]; exact List.mem_cons_self), slot_zeroSector]
  have hsector : sectorSlots d (G.fatClusterToLba c) =
      ⟨G.fatClusterToLba c, 0, (d (G.fatClusterToLba c)).slot 0⟩ ::
        ⟨G.fatClusterToLba c, 32, (d (G.fatClusterToLba c)).slot 32⟩ ::
          (sectorSlots d (G.fatClusterToLba c)).drop 2 := rfl
  rw [hslot 0, hslot 32] at hsector
  rw [hlbas, List.flatMap_cons, hsector] at hall ⊢
  exact ⟨_, rfl, hall⟩

theorem listed_zero : Dirent.listed (fun _ => 0) = false := rfl

/-- The search for the end of a chain ends. -/
theorem IsChain.chainEnds {c : ℕ} {l : List ℕ} (hl : G.IsChain d c l) : G.ChainEnds d c := by
  induction l generalizing c with
  | nil => cases hl.segment
  | cons a l ih =>
      obtain ⟨⟨ha, hseg⟩, hused⟩ := hl
      obtain rfl := Option.some.inj ha
      cases l with
      | nil => exact ⟨1, follow_eq_none.1 hseg⟩
      | cons b l =>
          obtain ⟨hb, hseg⟩ := hseg
          have hbv := (hused b (by simp)).1
          have hnext : G.next d c = b := (follow_eq_some (by have := hbv.1; omega)).1 hb
          obtain ⟨n, hn⟩ := ih ⟨⟨rfl, hseg⟩, fun y hy => hused y (List.mem_cons_of_mem _ hy)⟩
          exact ⟨n + 1, by rw [Function.iterate_succ_apply, hnext, hn]⟩

/-- **A cluster put behind the chain of a directory** adds free slots to it. -/
theorem grow_dirSlots (hG : GeoOk G) (hl : G.IsChain d p (l ++ [x])) (hc : G.Valid c) (hfree : G.entryAt d c = 0)
    {d₁ : Disk} (hd₁ : d₁ = G.setEntry (G.claim d c) x c) :
    Grown G d d₁ p (l ++ [x]) [c] ∧ d₁ (G.fatClusterToLba c) = zeroSector ∧
      ∃ rest, G.dirSlots d₁ p = G.dirSlots d p ++ G.clearedSlots c rest ∧
        ∀ s ∈ G.clearedSlots c rest, s.raw = fun _ => 0 := by
  have hg : Grown G d d₁ p (l ++ [x]) [c] := hd₁ ▸ grown_link hG hl hc hfree
  have hz : ∀ lba ∈ G.clusterLbas c, d₁ lba = zeroSector := fun lba hlba => hg.zero lba ⟨c, by simp, hlba⟩
  obtain ⟨rest, hrest, hzeros⟩ := clusterSlots_zero hG hz
  refine ⟨hg, hz _ (fatClusterToLba_mem hG.perCluster c), rest, ?_, hzeros⟩
  rw [dirSlots_eq, dirSlots_eq, dirLbas_chain hG hg.chain, dirLbas_chain hG hl, List.flatMap_append,
    List.flatMap_append, ← hrest]
  congr 1
  · refine List.flatMap_congr fun lba hlba => ?_
    obtain ⟨y, hy, hmem⟩ := List.mem_flatMap.1 hlba
    have hyv := IsChain.valid hl hy
    unfold sectorSlots
    rw [hg.sectors lba (hG.cluster_not_inTable hyv hmem)]
    rintro ⟨z, hz, hmem'⟩
    obtain rfl := List.mem_singleton.1 hz
    obtain rfl := hG.cluster_unique hyv hc hmem hmem'
    exact (hl.used y hy).2 hfree
  · rw [List.flatMap_singleton]

/-- **A cluster put behind a directory** adds free slots to it, and no entry. -/
theorem Volume.grow (hG : GeoOk G) (hv : Volume G d D X) (hp : p ∈ D) (hl : G.IsChain d p (l ++ [x]))
    (hc : G.Valid c) (hfree : G.entryAt d c = 0) {d₁ : Disk} (hd₁ : d₁ = G.setEntry (G.claim d c) x c) :
    Volume G d₁ D X ∧ d₁ (G.fatClusterToLba c) = zeroSector ∧
      (∃ rest, G.dirSlots d₁ p = G.dirSlots d p ++ G.clearedSlots c rest) ∧
      (∀ q, q ∈ X → G.dirSlots d₁ q = G.dirSlots d q) ∧ (∀ q ∈ D, G.children d₁ q = G.children d q) ∧
      Kept G d d₁ ((G.heads d D ∪ X) \ {p}) := by
  obtain ⟨hg, hzero, rest, hself, hzeros⟩ := grow_dirSlots hG hl hc hfree hd₁
  have h₀ : p ≠ 0 := by
    have := (IsChain.valid hl hl.head_mem).1
    omega
  have hhead : p ∈ G.heads d D ∪ X := Or.inl ⟨h₀, Or.inl hp⟩
  have hapart : ∀ h ∈ (G.heads d D ∪ X) \ {p}, ∀ k, G.IsChain d h k → k.Disjoint (l ++ [x] ++ [c]) := by
    rintro h ⟨hh, hhp⟩ k hk y hy hmem
    rcases List.mem_append.1 hmem with hmem | hmem
    · exact hv.chains.apart h hh p hhead hhp k _ hk hl hy hmem
    · obtain rfl := List.mem_singleton.1 hmem
      exact (hk.used y hy).2 hfree
  have hother : ∀ q, q ∈ D ∨ q ∈ X → q ≠ p → G.dirSlots d₁ q = G.dirSlots d q := by
    intro q hq hqp
    by_cases hq₀ : q = 0
    · exact dirSlots_only hG hg.only (Or.inl hq₀) fun k hk => absurd (IsChain.valid hk hk.head_mem).1 (by omega)
    · have hmem : q ∈ G.heads d D ∪ X := hq.imp (fun hq => ⟨hq₀, Or.inl hq⟩) id
      exact dirSlots_only hG hg.only (Or.inr (hv.chains.chain q hmem)) (hapart q ⟨hmem, hqp⟩)
  have htidy : ∀ q ∈ D, TidyDir (G.dirSlots d₁ q) := by
    intro q hq
    by_cases hqp : q = p
    · rw [hqp, hself]
      exact (hv.tidy p hp).append hzeros
    · rw [hother q (Or.inl hq) hqp]
      exact hv.tidy q hq
  have hkids : ∀ q ∈ D, G.children d₁ q = G.children d q := by
    intro q hq
    by_cases hqp : q = p
    · have hnone : (G.clearedSlots c rest).filter (·.raw.visible) = [] :=
        List.filter_eq_nil_iff.2 fun s hs => by simp [hzeros s hs, Dirent.visible, listed_zero]
      rw [hqp, children_eq (hqp ▸ htidy q hq), children_eq (hv.tidy p hp), hself, List.filter_append, hnone,
        List.append_nil]
    · rw [children, children, hother q (Or.inl hq) hqp]
  have hdots : ∀ q ∈ D, G.dots d₁ q = G.dots d q := by
    intro q hq
    by_cases hqp : q = p
    · have hnone : (G.clearedSlots c rest).filter (fun s => s.raw.listed && s.raw.isDot) = [] :=
        List.filter_eq_nil_iff.2 fun s hs => by simp [hzeros s hs, listed_zero]
      rw [hqp, dots_eq (hqp ▸ htidy q hq), dots_eq (hv.tidy p hp), hself, List.filter_append, hnone,
        List.append_nil]
    · rw [dots, dots, hother q (Or.inl hq) hqp]
  refine ⟨⟨hv.toOwned.congr hkids hv.extra (Chains.grown hv.chains hhead hl hg), htidy, fun q hq => ?_, hv.zero, fun q hq => ?_,
    fun q hq => ?_⟩, hzero, ⟨rest, hself⟩, fun q hq => hother q (Or.inr hq) ?_, hkids, Kept.of_only hG hg.only hapart⟩
  · rw [hkids q hq]
    exact hv.keys q hq
  · rw [hdots q hq]
    exact hv.dotted q hq
  · rw [hkids q hq]
    exact hv.loop q hq
  · rintro rfl
    exact hv.extra q hq ⟨h₀, Or.inl hp⟩

/-! ### `fat_create` -/

/-- The disk `d₁`, which is `d` or has one more cluster in the directory `p`, and the free slot
`s` of the directory, behind the slots `as`. -/
structure Room (G : FatState) (d d₁ : Disk) (D X : Set ℕ) (p : ℕ) (as : List Slot) (s : Slot) (bs : List Slot) :
    Prop where
  volume : Volume G d₁ D X
  split : G.dirSlots d₁ p = as ++ s :: bs
  before : ∀ t ∈ as, t.raw.isEnd = false
  free : s.raw.listed = false
  extra : ∀ q ∈ X, G.dirSlots d₁ q = G.dirSlots d q
  kids : ∀ q ∈ D, G.children d₁ q = G.children d q
  kept : Kept G d d₁ ((G.heads d D ∪ X) \ {p})

/-- **The second half of `fat_create`**, for the root of FAT16 or a directory with a chain: it is full
and cannot grow; or the entry is stored in the first free slot, or at the start of a new cluster. -/
theorem addEntry_cases (hG : GeoOk G) (hp : isRootDir G p = true ∨ ∃ l, G.IsChain m.dev p l) {ent : Dirent}
    {fuel : ℕ} {r : ℤ} (hf : addEntry Disk.dev G fuel p ent m = some (r, m')) :
    (r = -1 ∧ m'.dev = m.dev ∧ G.freeSlot m p = none ∧ (isRootDir G p = true ∨ G.firstFree m.dev = none)) ∨
    (r = 0 ∧ ∃ x, G.freeSlot m p = some x ∧ m'.dev = m.dev.setSlot x.toSlot ent) ∨
    (r = 0 ∧ G.freeSlot m p = none ∧ ∃ l x c, G.IsChain m.dev p (l ++ [x]) ∧ G.Valid c ∧ G.entryAt m.dev c = 0 ∧
      m'.dev = (G.setEntry (G.claim m.dev c) x c).setSlot ⟨G.fatClusterToLba c, 0, fun _ => 0⟩ ent) := by
  have hway := addEntry_way hG.lastCluster_succ hf
  generalize m'.dev = d at hway ⊢
  cases hway with
  | slot hfree => exact Or.inr (Or.inl ⟨rfl, _, hfree, rfl⟩)
  | full hfree hno => exact Or.inl ⟨rfl, rfl, hfree, hno⟩
  | grown hfree hroot hdev hlast hc =>
      -- the directory has a chain, to which the cluster is added
      obtain ⟨l, hl⟩ := hp.resolve_left (by rw [hroot]; exact Bool.false_ne_true)
      obtain ⟨l, x, rfl⟩ : ∃ l₀ x, l = l₀ ++ [x] :=
        ⟨l.dropLast, l.getLast (List.ne_nil_of_mem hl.head_mem), (List.dropLast_append_getLast _).symm⟩
      obtain ⟨rfl, -⟩ := lastOfChain_eq (by rwa [hdev]) hlast
      obtain ⟨h₂, hle, hzero⟩ := freeFrom_eq_some hc
      obtain ⟨-, hz, -⟩ := grow_dirSlots hG hl ⟨h₂, hle⟩ hzero rfl
      refine Or.inr (Or.inr ⟨rfl, hfree, l, _, _, hl, ⟨h₂, hle⟩, hzero, ?_⟩)
      rw [Disk.setSlot, hz]

/-- The directories of a volume are the root of FAT16 or have a chain. -/
theorem Volume.root_or_chain (hv : Volume G d D X) (hp : p ∈ D) : isRootDir G p = true ∨ ∃ l, G.IsChain d p l := by
  by_cases hroot : isRootDir G p = true
  · exact Or.inl hroot
  · have hp₀ : p ≠ 0 := by
      rintro rfl
      rw [isRootDir, beq_self_eq_true, Bool.and_true, Bool.not_eq_true', Bool.not_eq_false] at hroot
      exact hv.zero hroot hp
    exact Or.inr ((hv.toOwned.dir_chain hp).resolve_left hp₀)

/-- On a volume the entry is stored in a free slot, unless the directory is full and cannot grow. -/
theorem addEntry_spec (hG : GeoOk G) (hv : Volume G m.dev D X) (hp : p ∈ D) {ent : Dirent} {fuel : ℕ} {r : ℤ}
    (hf : addEntry Disk.dev G fuel p ent m = some (r, m')) :
    (r = -1 ∧ m'.dev = m.dev ∧ (∀ t ∈ G.dirSlots m.dev p, t.raw.isEnd = false) ∧
      (isRootDir G p = true ∨ G.firstFree m.dev = none)) ∨
    r = 0 ∧ ∃ d₁ as s bs, Room G m.dev d₁ D X p as s bs ∧ m'.dev = d₁.setSlot s ent := by
  have htidy := hv.tidy p hp
  rcases addEntry_cases hG (hv.root_or_chain hp) hf with ⟨hr, hd, hfull, hno⟩ | ⟨hr, x, hx, hd⟩ |
    ⟨hr, hfull, l, x, c, hl, hc, hzero, hd⟩
  · exact Or.inl ⟨hr, hd, freeSlot_none htidy hfull, hno⟩
  · obtain ⟨as, bs, hsplit, hbefore, hvis⟩ := freeSlot_split htidy hx
    exact Or.inr ⟨hr, m.dev, as, x.toSlot, bs,
      ⟨hv, hsplit, hbefore, hvis, fun _ _ => rfl, fun _ _ => rfl, Kept.refl _ _⟩, hd⟩
  · obtain ⟨hvol, -, ⟨rest, hslots⟩, hextra, hkids, hkept⟩ := hv.grow hG hp hl hc hzero rfl
    exact Or.inr ⟨hr, _, _, _, _, ⟨hvol, hslots, freeSlot_none htidy hfull, listed_zero, hextra, hkids, hkept⟩, hd⟩

/-- From `d` to `d'` an entry was put into the directory `p`; it is one that is in use, or not. -/
def Added (G : FatState) (d d' : Disk) (p : ℕ) (t : Slot) : Prop :=
  ∃ ca cb, G.children d p = ca ++ cb ∧ G.children d' p = ca ++ (if t.raw.visible then [t] else []) ++ cb

section Room

variable {d₁ : Disk} {as bs : List Slot} (hG : GeoOk G) (hr : Room G d d₁ D X p as s bs) (hp : p ∈ D)
include hG hr hp

theorem Room.added (hfit : Fits G d₁ D p as s bs e) :
    Added G d (d₁.setSlot s e) p (s.put e) ∧ ∀ q ∈ D, q ≠ p → G.children (d₁.setSlot s e) q = G.children d q := by
  obtain ⟨hold, hnew, hother⟩ := hr.volume.setSlot_children hG hfit
  have hvis : s.raw.visible = false := by rw [Dirent.visible, hr.free, Bool.false_and]
  have hput : (s.put e).raw.visible = e.visible := Dirent.visible_cut
  rw [hvis, if_neg Bool.false_ne_true, List.append_nil, hr.kids p hp] at hold
  exact ⟨⟨_, _, hold, by rw [hput]; exact hnew⟩, fun q hq hqp => (hother q hq hqp).trans (hr.kids q hq)⟩

theorem Room.kept_store (e : Dirent) : Kept G d (d₁.setSlot s e) ((G.heads d D ∪ X) \ {p}) := by
  have hs : s ∈ G.dirSlots d₁ p := by rw [hr.split]; simp
  have hstore := hr.volume.toOwned.setSlot_kept hG hp hs (Set.Subset.refl _) (Kept.refl d₁ _) e
  rw [heads_congr hr.kids] at hstore
  exact hr.kept.trans hstore

end Room

/-! ### New directories -/

/-- An entry for `.` or `..`. -/
theorem dotDirent {key : Bytes} (hkey : key = padded 11 [46] ∨ key = padded 11 [46, 46]) (first : ℕ) :
    (newDirent key 0x10 first).plain = true ∧ (newDirent key 0x10 first).listed = true ∧
      (newDirent key 0x10 first).isDot = true ∧ (newDirent key 0x10 first).name = key := by
  have hlen : key.length = 11 := by rcases hkey with rfl | rfl <;> rfl
  have hname := name_newDirent_key 0x10 first hlen
  refine ⟨?_, ?_, ?_, hname⟩
  · rw [Dirent.plain, Dirent.isLong, Dirent.isVolumeId, attr_newDirent]
    rfl
  · rw [Dirent.listed, Dirent.isEnd, Dirent.isDeleted, newDirent_zero]
    rcases hkey with rfl | rfl <;> rfl
  · rw [Dirent.isDot, hname]
    rcases hkey with rfl | rfl <;> rfl

/-- **The sector that `fat_mkdir` fills in** makes an empty directory of a new cluster. -/
theorem newDir_slots (hG : GeoOk G) (hc : G.Valid c) {d₂ : Disk}
    (hd₂ : d₂ = Function.update (G.claim d c) (G.fatClusterToLba c) (dotSector c p)) :
    TidyDir (G.dirSlots d₂ c) ∧ G.children d₂ c = [] ∧
      (G.dots d₂ c).map (·.raw.name) = [padded 11 [46], padded 11 [46, 46]] := by
  have hchain := isChain_claim (d := d) hG hc
  obtain ⟨rest, hrest, hzeros⟩ := clusterSlots_zero (d := G.claim d c) hG fun lba hlba => claim_of_mem hlba
  have hlba := fatClusterToLba_mem hG.perCluster c
  have ht := hG.cluster_not_inTable hc hlba
  obtain ⟨hAp, hAl, hAd, hAn⟩ := dotDirent (Or.inl rfl) c
  obtain ⟨hBp, hBl, hBd, hBn⟩ := dotDirent (Or.inr rfl) p
  generalize hA : newDirent (padded 11 [46]) 0x10 c = A at *
  generalize hB : newDirent (padded 11 [46, 46]) 0x10 p = B at *
  rw [clearedSlots] at hrest hzeros
  generalize hz₀ : (⟨G.fatClusterToLba c, 0, fun _ => 0⟩ : Slot) = z₀ at *
  generalize hz₁ : (⟨G.fatClusterToLba c, 32, fun _ => 0⟩ : Slot) = z₁ at *
  have hlba₀ : z₀.lba = G.fatClusterToLba c ∧ z₀.off = 0 := by rw [← hz₀]; exact ⟨rfl, rfl⟩
  have hlba₁ : z₁.lba = G.fatClusterToLba c ∧ z₁.off = 32 := by rw [← hz₁]; exact ⟨rfl, rfl⟩
  -- the sector is that of two stores to the cleared one
  have hstores : d₂ = ((G.claim d c).setSlot z₀ A).setSlot z₁ B := by
    rw [hd₂, Disk.setSlot, Disk.setSlot, hlba₀.1, hlba₀.2, hlba₁.1, hlba₁.2, Function.update_self,
      Function.update_idem, claim_of_mem hlba, ← hA, ← hB]
    rfl
  have hslots₀ : G.dirSlots (G.claim d c) c = [] ++ z₀ :: z₁ :: rest := by
    rw [dirSlots_eq, dirLbas_chain hG hchain, List.flatMap_singleton, hrest]
    rfl
  have hspread₀ := spread_dirSlots hG (Or.inr ⟨_, hchain⟩)
  rw [hslots₀] at hspread₀
  have hslots₁ : G.dirSlots ((G.claim d c).setSlot z₀ A) c = [z₀.put A] ++ z₁ :: rest := by
    rw [dirSlots_setSlot hG (by rwa [hlba₀.1]) (by rw [hlba₀.2]), hslots₀, hspread₀.map_replace]
    rfl
  have hchain₁ : G.IsChain ((G.claim d c).setSlot z₀ A) c [c] := IsChain.congr hchain fun x hx =>
    hG.entryAt_update (by rwa [hlba₀.1]) (IsChain.valid hchain hx).2
  have hspread₁ := spread_dirSlots hG (Or.inr ⟨_, hchain₁⟩)
  rw [hslots₁] at hspread₁
  have hslots₂ : G.dirSlots d₂ c = [z₀.put A, z₁.put B] ++ rest := by
    rw [hstores, dirSlots_setSlot hG (by rwa [hlba₁.1]) (by rw [hlba₁.2]), hslots₁, hspread₁.map_replace]
    rfl
  have hrest₀ : ∀ s ∈ rest, s.raw = fun _ => 0 := fun s hs => hzeros s (by simp [hs])
  have htidy : TidyDir (G.dirSlots d₂ c) := by
    rw [hslots₂]
    refine TidyDir.append ⟨fun s hs => ?_, ?_⟩ hrest₀
    · rcases List.mem_pair.1 hs with rfl | rfl
      · rw [← hAp]
        exact Dirent.plain_congr Dirent.attr_cut
      · rw [← hBp]
        exact Dirent.plain_congr Dirent.attr_cut
    · refine List.pairwise_pair.2 fun hend => ?_
      rw [Dirent.listed, Bool.and_eq_true, Bool.not_eq_true'] at hAl
      rw [show (z₀.put A).raw.isEnd = A.isEnd from Dirent.isEnd_cut, hAl.1] at hend
      cases hend
  have hput : ∀ (z : Slot) (e : Dirent), (z.put e).raw.listed = e.listed ∧ (z.put e).raw.isDot = e.isDot ∧
      (z.put e).raw.name = e.name := fun z e => ⟨Dirent.listed_cut, Dirent.isDot_congr Dirent.name_cut, Dirent.name_cut⟩
  have hnone : ∀ f : Dirent → Bool, rest.filter (fun s => s.raw.listed && f s.raw) = [] := fun f =>
    List.filter_eq_nil_iff.2 fun s hs => by simp [hrest₀ s hs, listed_zero]
  refine ⟨htidy, ?_, ?_⟩
  · have hnone := hnone fun e => !e.isDot
    rw [children_eq htidy, hslots₂, List.filter_append]
    simp only [Dirent.visible, hnone, List.filter_cons, hput, hAd, hBd, Bool.not_true, Bool.and_false,
      Bool.false_eq_true, if_false, List.filter_nil, List.append_nil]
  · rw [dots_eq htidy, hslots₂, List.filter_append]
    simp only [hnone, List.filter_cons, hput, hAd, hBd, hAl, hBl, Bool.and_true, if_true, List.filter_nil,
      List.append_nil, List.map_cons, List.map_nil, hAn, hBn]

/-! ### The whole of `fat_create` -/

theorem Volume.of_slots {X' : Set ℕ} (hv : Volume G d D X) (ho : Owned G d' D X')
    (hs : ∀ q ∈ D, G.dirSlots d' q = G.dirSlots d q) : Volume G d' D X' := by
  refine ⟨ho, fun q hq => ?_, fun q hq => ?_, hv.zero, fun q hq => ?_, fun q hq => ?_⟩
  · rw [hs q hq]
    exact hv.tidy q hq
  · rw [children_congr (hs q hq)]
    exact hv.keys q hq
  · rw [dots, hs q hq]
    exact hv.dotted q hq
  · rw [children_congr (hs q hq)]
    exact hv.loop q hq

theorem only_claim (hG : GeoOk G) (hc : G.Valid c) : Only G d (G.claim d c) [c] := by
  refine ⟨by simpa using hc, fun x hx hxc => ?_, fun lba ht hlba => ?_⟩
  · rw [entryAt_claim hG hc hx, if_neg (by simpa using hxc)]
  · exact claim_of_notMem hG hc (fun hmem => hlba ⟨c, by simp, hmem⟩) ht

/-- **A cluster for a new directory**, with its first sector. -/
theorem Volume.claimDir (hG : GeoOk G) (hv : Volume G d D X) (hc : G.Valid c) (hfree : G.entryAt d c = 0)
    {d₂ : Disk} (hd₂ : d₂ = Function.update (G.claim d c) (G.fatClusterToLba c) (dotSector c p)) :
    Volume G d₂ D (insert c X) ∧ (∀ q ∈ D, G.dirSlots d₂ q = G.dirSlots d q) ∧
      Kept G d d₂ (G.heads d D ∪ X) := by
  have hchain := isChain_claim (d := d) hG hc
  have hzero : ∀ y ∈ [c], G.entryAt d y = 0 := by simpa using hfree
  obtain ⟨ho₁, hs₁⟩ := hv.toOwned.insert hG hchain (only_claim hG hc) hzero
  have hlba := fatClusterToLba_mem hG.perCluster c
  have ht := hG.cluster_not_inTable hc hlba
  have hentry : ∀ x, G.Valid x → G.entryAt d₂ x = G.entryAt (G.claim d c) x := fun x hx => by
    rw [hd₂]
    exact hG.entryAt_update ht hx.2
  have honly : Only G (G.claim d c) d₂ [c] := by
    rw [hd₂]
    exact (Only.refl (by simpa using hc)).update hG List.mem_cons_self hlba
  obtain ⟨ho₂, hs₂⟩ := ho₁.store hG (Set.mem_insert c X) hchain honly hentry
  have hslots : ∀ q ∈ D, G.dirSlots d₂ q = G.dirSlots d q := fun q hq => (hs₂ q hq).trans (hs₁ q hq)
  have hnew : ∀ h ∈ G.heads d D ∪ X, ∀ l, G.IsChain d h l → l.Disjoint [c] := by
    intro h _ l hl y hy hmem
    obtain rfl := List.mem_singleton.1 hmem
    exact (hl.used y hy).2 hfree
  have hkept₁ := Kept.of_only hG (only_claim hG hc) hnew
  have hkept₂ : Kept G (G.claim d c) d₂ (G.heads d D ∪ X) := by
    refine Kept.of_only hG honly fun h hh l hl y hy hmem => ?_
    obtain ⟨k, hk⟩ := hv.chains.chain h hh
    obtain rfl := Linked.Chain.unique hl (hkept₁ h hh k hk).1
    exact hnew h hh l hk hy hmem
  exact ⟨hv.of_slots ho₂ hslots, hslots, hkept₁.trans hkept₂⟩

/-- The entry that `fat_create` stores; it is in use unless its name starts with the mark of
deleted entries. -/
structure NewEntry (t : Slot) (name : Bytes) (type : VfsType) : Prop where
  key : t.raw.name = fatNameFromDot name
  kind : t.raw.type = type
  size : t.raw.size = 0
  first : type = .file → t.raw.firstCluster = 0
  shown : t.raw.visible = ((fatNameFromDot name).getD 0 0 != 0xE5)

/-- `FAT_ATTR_DIR` for a directory. -/
def attrOf (type : VfsType) : UInt8 :=
  match type with
  | .file => 0
  | .dir => 0x10

theorem plain_attrOf (key : Bytes) (type : VfsType) (first : ℕ) : (newDirent key (attrOf type) first).plain = true := by
  rw [Dirent.plain, Dirent.isLong, Dirent.isVolumeId, attr_newDirent]
  cases type <;> rfl

theorem isDir_attrOf (key : Bytes) (type : VfsType) (first : ℕ) :
    (newDirent key (attrOf type) first).isDir = (type == .dir) := by
  rw [Dirent.isDir, attr_newDirent]
  cases type <;> rfl

theorem newEntry (s : Slot) (name : Bytes) (type : VfsType) (hc : c < 2 ^ 32) (hfirst : type = .file → c = 0) :
    NewEntry (s.put (newDirent (fatNameFromDot name) (attrOf type) c)) name type := by
  refine ⟨Dirent.name_cut.trans (name_newDirent _ _ _), ?_, (size_cut _).trans (size_newDirent _ _ _), fun h => ?_,
    Dirent.visible_cut.trans ?_⟩
  · have hdir : (s.put (newDirent (fatNameFromDot name) (attrOf type) c)).raw.isDir = (type == .dir) :=
      (Dirent.isDir_congr Dirent.attr_cut).trans (isDir_attrOf _ _ _)
    rw [Dirent.type, hdir]
    cases type <;> rfl
  · refine Dirent.firstCluster_cut.trans ?_
    rw [firstCluster_newDirent _ _ _ hc, hfirst h]
  · rw [Dirent.visible, Dirent.listed, isEnd_newDirent, isDot_newDirent, Dirent.isDeleted, newDirent_zero]
    simp [bne]

/-- What a call of `fat_create` does to the entries of the directories. -/
def CreateResult (G : FatState) (d d' : Disk) (D D' : Set ℕ) (p : ℕ) (name : Bytes) (type : VfsType) (r : ℤ) : Prop :=
  (r = -1 ∧ D' = D ∧ ∀ q ∈ D, G.children d' q = G.children d q) ∨
  (r = 0 ∧ (∀ s ∈ G.children d p, s.raw.name ≠ fatNameFromDot name) ∧
    (∀ q ∈ D, q ≠ p → G.children d' q = G.children d q) ∧
    ∃ t, NewEntry t name type ∧ Added G d d' p t)

/-- The entry is stored in a free slot of the directory. -/
theorem Room.create (hG : GeoOk G) {d₁ : Disk} {as bs : List Slot} (hr : Room G d d₁ D X p as s bs) (hp : p ∈ D)
    (name : Bytes) (type : VfsType) (hkey : ∀ s ∈ G.children d p, s.raw.name ≠ fatNameFromDot name)
    (hfirst : type = .file ∧ c = 0 ∨ type = .dir ∧ G.Valid c ∧ c ∈ X ∧ TidyDir (G.dirSlots d c) ∧
      G.children d c = [] ∧ (G.dots d c).map (·.raw.name) = [padded 11 [46], padded 11 [46, 46]])
    {d' : Disk} (hd' : d' = d₁.setSlot s (newDirent (fatNameFromDot name) (attrOf type) c)) :
    ∃ D' X', Volume G d' D' X' ∧ D ⊆ D' ∧ (∀ q ∈ D', q ∉ D → G.children d' q = []) ∧
      CreateResult G d d' D D' p name type 0 := by
  have hc : c < 2 ^ 32 := by
    rcases hfirst with ⟨-, rfl⟩ | ⟨-, hc, -⟩
    · omega
    · exact hc.2.trans_lt G.lastCluster_lt
  have hfirst₀ : type = .file → c = 0 := by
    rintro rfl
    rcases hfirst with ⟨-, rfl⟩ | ⟨h, -⟩
    · rfl
    · cases h
  have hnew := newEntry s name type hc hfirst₀
  have hplain := plain_attrOf (fatNameFromDot name) type c
  have hdir := isDir_attrOf (fatNameFromDot name) type c
  have hend := isEnd_newDirent name (attrOf type) c
  have hdot := isDot_newDirent name (attrOf type) c
  have hname := name_newDirent name (attrOf type) c
  have hfc := firstCluster_newDirent (attrOf type) c (fatNameFromDot name) hc
  generalize newDirent (fatNameFromDot name) (attrOf type) c = e at *
  have hfit : Fits G d₁ D p as s bs e := ⟨hp, hr.split, hr.before, hplain, hend, hdot, Or.inl hr.free⟩
  obtain ⟨hadd, hother⟩ := hr.added hG hp hfit
  have hkey₁ : ∀ t ∈ G.children d₁ p, ¬s.At t → t.raw.name ≠ e.name := by
    intro t ht _
    rw [hname]
    rw [hr.kids p hp] at ht
    exact hkey t ht
  subst hd'
  have hresult : ∀ D', CreateResult G d (d₁.setSlot s e) D D' p name type 0 := fun D' =>
    Or.inr ⟨rfl, hkey, hother, s.put e, hnew, hadd⟩
  rcases hfirst with ⟨rfl, rfl⟩ | ⟨rfl, hcv, hcX, htidy, hempty, hdots⟩
  · have hvol := hr.volume.putFile hG hfit hdir (Or.inl hfc) hkey₁
    exact ⟨D, _, hvol, Set.Subset.refl D, fun q hq hnot => absurd hq hnot, hresult D⟩
  · by_cases hvis : e.visible = true
    · have hslots := hr.extra c hcX
      have hvol := hr.volume.putDir hG hfit hdir
        (by rwa [hfc]) (by rw [hfc]; have := hcv.1; omega) hkey₁ (by rw [hfc, children_congr hslots]; exact hempty)
        (by rw [hfc, hslots]; exact htidy) (by rw [hfc, dots, hslots]; exact hdots)
      rw [hfc] at hvol
      refine ⟨_, _, hvol, Set.subset_insert c D, fun q hq hnot => ?_, hresult _⟩
      obtain rfl := hq.resolve_right hnot
      obtain ⟨-, -, hkeep⟩ := hr.volume.toOwned.setSlot_slots hG hp hr.split e
      rw [children_congr (hkeep q (Or.inr hcX) fun he => hnot (he ▸ hp)), children_congr hslots]
      exact hempty
    · have hvis : e.visible = false := Bool.not_eq_true _ ▸ hvis
      obtain ⟨hvol, -⟩ := hr.volume.putInvisible hG hfit (by rw [Dirent.visible, hr.free, Bool.false_and]) hvis
      exact ⟨D, X, hvol, Set.Subset.refl D, fun q hq hnot => absurd hq hnot, hresult D⟩

/-- **`fat_create` and `fat_mkdir`** keep a volume, and do to its entries what they should. -/
theorem fatCreate_spec (hG : GeoOk G) (hv : Volume G m.dev D X) (hp : p ∈ D) {fuel : ℕ} {r : ℤ} {type : VfsType}
    (hf : fatCreate Disk.dev G fuel p name type m = some (r, m')) :
    ∃ D' X', Volume G m'.dev D' X' ∧ D ⊆ D' ∧ (∀ q ∈ D', q ∉ D → G.children m'.dev q = []) ∧
      Kept G m.dev m'.dev ((G.heads m.dev D ∪ X) \ {p}) ∧ CreateResult G m.dev m'.dev D D' p name type r := by
  have hsame : ∀ {d' : Disk}, d' = m.dev → ∃ D' X', Volume G d' D' X' ∧ D ⊆ D' ∧
      (∀ q ∈ D', q ∉ D → G.children d' q = []) ∧ Kept G m.dev d' ((G.heads m.dev D ∪ X) \ {p}) ∧
      CreateResult G m.dev d' D D' p name type (-1) := by
    rintro d' rfl
    exact ⟨D, X, hv, Set.Subset.refl D, fun q hq hnot => absurd hq hnot, Kept.refl _ _, Or.inl ⟨rfl, rfl, fun _ _ => rfl⟩⟩
  have hkeyed : G.lookup m p name = none → ∀ s ∈ G.children m.dev p, s.raw.name ≠ fatNameFromDot name := by
    rw [lookup_eq_keyed (hv.tidy p hp)]
    intro hex s hs hname
    have := keyed_isSome.2 ⟨s, hs, hname⟩
    rw [hex] at this
    cases this
  cases fatCreate_way hG.lastCluster_succ hf with
  | found _ => exact hsame rfl
  | full _ _ => exact hsame rfl
  | @file _ _ l hex hadd =>
      rcases addEntry_spec (m := ⟨m.dev, l⟩) hG hv hp hadd with ⟨rfl, hd, -⟩ | ⟨rfl, d₁, as, s, bs, hr, hd⟩
      · exact hsame hd
      · obtain ⟨D', X', hvol, hsub, hempty, hres⟩ :=
          hr.create hG hp name .file (hkeyed hex) (Or.inl ⟨rfl, rfl⟩) hd
        exact ⟨D', X', hvol, hsub, hempty, by rw [hd]; exact hr.kept_store hG hp _, hres⟩
  | @dir _ _ l c hex hff hrest =>
      have hkey := hkeyed hex
      obtain ⟨h₂, hle, hzero⟩ := freeFrom_eq_some hff
      obtain ⟨hvol₂, hslots₂, hkept₂⟩ := hv.claimDir hG ⟨h₂, hle⟩ hzero (p := p) rfl
      obtain ⟨htidy, hempty, hdots⟩ := newDir_slots hG (d := m.dev) (p := p) ⟨h₂, hle⟩ rfl
      have hkids₂ : ∀ q ∈ D, G.children _ q = G.children m.dev q := fun q hq => children_congr (hslots₂ q hq)
      have hheads := heads_congr hkids₂
      rcases addEntry_spec hG hvol₂ hp hrest with ⟨rfl, hd, -⟩ | ⟨rfl, d₁, as, s, bs, hroom, hd⟩
      · simp only at hd
        refine ⟨D, _, by rw [hd]; exact hvol₂, Set.Subset.refl D, fun q hq hnot => absurd hq hnot, ?_, ?_⟩
        · rw [hd]
          exact hkept₂.mono Set.sdiff_subset
        · exact Or.inl ⟨rfl, rfl, by rw [hd]; exact hkids₂⟩
      · obtain ⟨D', X', hvol, hsub, hnone, hres⟩ := hroom.create hG hp name .dir (c := c)
          (fun s hs => by
            rw [hkids₂ p hp] at hs
            exact hkey s hs)
          (Or.inr ⟨rfl, ⟨h₂, hle⟩, Set.mem_insert c X, htidy, hempty, hdots⟩) hd
        have hstore := hroom.kept_store hG hp (newDirent (fatNameFromDot name) 0x10 c)
        rw [hheads, ← hd] at hstore
        refine ⟨D', X', hvol, hsub, hnone, (hkept₂.mono Set.sdiff_subset).trans (hstore.mono ?_), ?_⟩
        · exact Set.sdiff_subset_sdiff_left (Set.union_subset_union_right _ (Set.subset_insert c X))
        · obtain ⟨h, -⟩ | ⟨-, -, hother, t, hnew, ca, cb, hca, hcb⟩ := hres
          · cases h
          · rw [hkids₂ p hp] at hca
            exact Or.inr ⟨rfl, hkey, fun q hq hqp => (hother q hq hqp).trans (hkids₂ q hq), t, hnew, ca, cb, hca, hcb⟩

/-! ### `fat_unlink` -/

theorem visible_of_mem (hv : Volume G d D X) (hp : p ∈ D) (hs : s ∈ G.children d p) : s.raw.visible = true := by
  rw [children_eq (hv.tidy p hp)] at hs
  exact (List.mem_filter.1 hs).2

theorem isEnd_of_visible (h : e.visible = true) : e.isEnd = false ∧ e.isDot = false := by
  rw [Dirent.visible, Dirent.listed, Bool.and_eq_true, Bool.and_eq_true, Bool.not_eq_true'] at h
  exact ⟨h.1.1, by simpa using h.2⟩

/-- The directories that are left when the chain of `c` is freed. -/
def without (D : Set ℕ) (c : ℕ) : Set ℕ := {q ∈ D | c = 0 ∨ q ≠ c}

/-- The entry that is left in a slot when it is deleted. -/
theorem deleted_dirent {e' : Dirent} (he' : e' = Function.update e 0 0xE5) (hp : e.plain = true) :
    e'.plain = true ∧ e'.isEnd = false ∧ e'.isDot = false ∧ e'.visible = false := by
  have hattr : e'.attr = e.attr := by
    rw [he']
    exact Function.update_of_ne (by omega) _ _
  have hfirst : e' 0 = 0xE5 := by rw [he', Function.update_self]
  have hhead : ∀ s : Bytes, s.getD 0 0 ≠ 0xE5 → e'.name ≠ s := by
    rintro s hs rfl
    exact hs hfirst
  refine ⟨by rw [Dirent.plain_congr hattr, hp], by rw [Dirent.isEnd, hfirst]; rfl, ?_, ?_⟩
  · rw [Dirent.isDot, Bool.or_eq_false_iff]
    exact ⟨beq_eq_false_iff_ne.2 (hhead _ (by decide)), beq_eq_false_iff_ne.2 (hhead _ (by decide))⟩
  · rw [Dirent.visible, Dirent.listed, Dirent.isDeleted, hfirst]
    simp

/-- **The owners that are left** when the entry in the slot `s` is gone with its chain. -/
theorem Owned.erase (ho : Owned G d D X) (hp : p ∈ D) (hs : s ∈ G.children d p)
    (hkids : ∀ q ∈ without D s.raw.firstCluster, ∀ t ∈ G.children d' q, t ∈ G.children d q ∧ t ≠ s)
    (hchains : G.Chains d' ((G.heads d D ∪ X) \ {s.raw.firstCluster})) :
    Owned G d' (without D s.raw.firstCluster) X := by
  have hfirst : ∀ q ∈ without D s.raw.firstCluster, ∀ t ∈ G.children d' q, t.raw.firstCluster ≠ 0 →
      t.raw.firstCluster ≠ s.raw.firstCluster := by
    intro q hq t ht h₀ heq
    obtain ⟨ht, hne⟩ := hkids q hq t ht
    exact hne (ho.once q hq.1 p hp t ht s hs heq h₀)
  refine ho.shrink (fun q hq => hq.1) ⟨ho.root, ?_⟩ (fun q hq t ht => (hkids q hq t ht).1)
    (fun q hq t ht hdir => ⟨ho.sub q hq.1 t (hkids q hq t ht).1 hdir, ?_⟩) (Linked.Forest.mono hchains ?_)
  · by_cases h₀ : s.raw.firstCluster = 0
    · exact Or.inl h₀
    · exact Or.inr fun he => h₀ (ho.rootOnce p hp s hs he.symm)
  · by_cases h₀ : s.raw.firstCluster = 0
    · exact Or.inl h₀
    · by_cases ht₀ : t.raw.firstCluster = 0
      · exact Or.inr fun he => h₀ (he ▸ ht₀)
      · exact Or.inr (hfirst q hq t ht ht₀)
  · rintro x (⟨hx₀, hx | ⟨q, hq, t, ht, rfl⟩⟩ | hx)
    · exact ⟨Or.inl ⟨hx₀, Or.inl hx.1⟩, fun he : x = _ => (hx.2.resolve_left fun h₀ => hx₀ (he.trans h₀)) he⟩
    · exact ⟨Or.inl ⟨hx₀, Or.inr ⟨q, hq.1, t, (hkids q hq t ht).1, rfl⟩⟩, hfirst q hq t ht hx₀⟩
    · refine ⟨Or.inr hx, fun he : x = _ => ho.extra x hx ⟨?_, Or.inr ⟨p, hp, s, hs, he.symm⟩⟩⟩
      obtain ⟨l, hl⟩ := ho.chains.chain x (Or.inr hx)
      have := (IsChain.valid hl hl.head_mem).1
      omega

/-- **An entry is deleted**, behind the return of its clusters. -/
theorem Volume.delete (hG : GeoOk G) (hv : Volume G d D X) (hp : p ∈ D) (hs : s ∈ G.children d p) {d₁ : Disk}
    (hslots : ∀ q ∈ without D s.raw.firstCluster, G.dirSlots d₁ q = G.dirSlots d q)
    (hchains : G.Chains d₁ ((G.heads d D ∪ X) \ {s.raw.firstCluster}))
    (hd' : d' = d₁.setSlot s (Function.update s.raw 0 0xE5)) :
    Volume G d' (without D s.raw.firstCluster) X ∧
      (∀ q ∈ without D s.raw.firstCluster, q ≠ p → G.children d' q = G.children d q) ∧
      ∃ ca cb, G.children d p = ca ++ s :: cb ∧
        (p ∈ without D s.raw.firstCluster → G.children d' p = ca ++ cb) := by
  have ho := hv.toOwned
  obtain ⟨as, bs, hsplit⟩ := List.append_of_mem (mem_children hs)
  have hvis := visible_of_mem hv hp hs
  obtain ⟨hend, hdot⟩ := isEnd_of_visible hvis
  obtain ⟨hep, hee, hed, hev⟩ := deleted_dirent rfl ((hv.tidy p hp).plain s (mem_children hs))
  generalize (Function.update s.raw 0 0xE5 : Dirent) = e at *
  obtain ⟨ht, hoff, -⟩ := ho.slot_place hG hp hsplit
  have hfit : Fits G d D p as s bs e :=
    ⟨hp, hsplit, (hsplit ▸ hv.tidy p hp : TidyDir (as ++ s :: bs)).before hend, hep, hee, hed, Or.inr hdot⟩
  -- the directories that are left look as if the entry had been deleted first
  have hsame : ∀ q ∈ without D s.raw.firstCluster, G.dirSlots d' q = G.dirSlots (d.setSlot s e) q := fun q hq => by
    rw [hd', dirSlots_setSlot hG ht hoff, hslots q hq, dirSlots_setSlot hG ht hoff]
  obtain ⟨hold, hnew, hother⟩ := hv.setSlot_children hG hfit
  rw [hvis, if_pos rfl, List.append_assoc, List.singleton_append] at hold
  rw [hev, if_neg Bool.false_ne_true, List.append_nil] at hnew
  have htidy : ∀ q ∈ without D s.raw.firstCluster, TidyDir (G.dirSlots d' q) := fun q hq => by
    rw [hsame q hq]
    exact hv.setSlot_tidy hG hfit hq.1
  have hkids : ∀ q ∈ without D s.raw.firstCluster, ∀ t ∈ G.children d' q, t ∈ G.children d q ∧ t ≠ s := by
    intro q hq t ht'
    have hvt : t.raw.visible = true := by
      rw [children_eq (htidy q hq)] at ht'
      exact (List.mem_filter.1 ht').2
    rw [children_congr (hsame q hq)] at ht'
    rcases hv.mem_setSlot_children hG hfit hq.1 ht' with ⟨hmem, hat⟩ | rfl
    · exact ⟨hmem, fun he => hat (he ▸ ⟨rfl, rfl⟩)⟩
    · exact absurd ((Dirent.visible_cut.trans hev).symm.trans hvt) Bool.false_ne_true
  have howned : Owned G d' (without D s.raw.firstCluster) X := by
    refine ho.erase hp hs hkids (Chains.congr hchains fun x hx => ?_)
    rw [hd']
    exact hG.entryAt_update ht hx.2
  refine ⟨⟨howned, htidy, fun q hq => ?_, fun h32 hmem => hv.zero h32 hmem.1, fun q hq => ?_,
    fun q hq t ht' => hv.loop q hq.1 t (hkids q hq t ht').1⟩, fun q hq hqp => ?_, _, _, hold, fun hp' => ?_⟩
  · rw [children_congr (hsame q hq)]
    by_cases hqp : q = p
    · have hkeys := hv.keys p hp
      rw [hold] at hkeys
      rw [hqp, hnew]
      exact hkeys.sublist ((List.Sublist.refl _).append (List.sublist_cons_self _ _))
    · rw [hother q hq.1 hqp]
      exact hv.keys q hq.1
  · rw [dots, hsame q hq]
    exact hv.setSlot_dotted hG hfit hq.1
  · rw [children_congr (hsame q hq), hother q hq.1 hqp]
  · rw [children_congr (hsame p hp'), hnew]

theorem Freed.only (hl : G.IsChain d h l) (hf : Freed G d d' l) : Only G d d' l :=
  ⟨fun _ hc => IsChain.valid hl hc, hf.entries, fun lba ht _ => hf.sectors lba ht⟩

/-- The disk once `fat_unlink` has given back the clusters of the entry that it found. -/
theorem fatUnlink_freed (hG : GeoOk G) (ho : Owned G m.dev D X) (hp : p ∈ D) {fuel : ℕ} {r : ℤ} {x : Entry}
    (hx : G.keyed m p name = some x) (hf : fatUnlink Disk.dev G fuel p name m = some (r, m')) :
    r = 0 ∧ ∃ d₁, m'.dev = d₁.setSlot x.toSlot (Function.update x.raw 0 0xE5) ∧
      (∀ q ∈ without D x.raw.firstCluster, G.dirSlots d₁ q = G.dirSlots m.dev q) ∧
      G.Chains d₁ ((G.heads m.dev D ∪ X) \ {x.raw.firstCluster}) ∧
      Kept G m.dev d₁ ((G.heads m.dev D ∪ X) \ {x.raw.firstCluster}) := by
  have heq := fatUnlink_eq (G := G) fuel p name m
  rw [hf, Option.map_some, hx, Option.elim_some] at heq
  obtain ⟨hs, -⟩ := keyed_toSlot hx
  obtain ⟨d₁, hfree, hstore⟩ := Option.map_eq_some_iff.1 heq.symm
  obtain ⟨hr, hd⟩ := Prod.mk.inj hstore
  have hfreed : (∀ q ∈ without D x.raw.firstCluster, G.dirSlots d₁ q = G.dirSlots m.dev q) ∧
      G.Chains d₁ ((G.heads m.dev D ∪ X) \ {x.raw.firstCluster}) ∧
      (∀ lba, ¬G.InTable lba → d₁ lba = m.dev lba) ∧
      Kept G m.dev d₁ ((G.heads m.dev D ∪ X) \ {x.raw.firstCluster}) := by
    by_cases h₀ : x.raw.firstCluster = 0
    · rw [if_neg (by omega)] at hfree
      obtain rfl := Option.some.inj hfree
      exact ⟨fun _ _ => rfl, Linked.Forest.mono ho.chains Set.sdiff_subset, fun _ _ => rfl, Kept.refl _ _⟩
    · have hhead : x.raw.firstCluster ∈ G.heads m.dev D ∪ X := Or.inl ⟨h₀, Or.inr ⟨p, hp, _, hs, rfl⟩⟩
      obtain ⟨l, hl⟩ := ho.chains.chain _ hhead
      rw [if_pos (IsChain.valid hl hl.head_mem).1] at hfree
      have hF := freeChain_freed hG hl hfree
      refine ⟨fun q hq => ?_, Chains.freed ho.chains hhead hl hF, hF.sectors,
        Kept.of_only hG (hF.only hl) fun h hh k hk => ?_⟩
      · exact dirSlots_only hG (hF.only hl) (ho.dir_chain hq.1) fun k hk =>
          ho.dir_apart hq.1 hhead (hq.2.resolve_left h₀) hl hk
      · exact ho.chains.apart h hh.1 _ hhead hh.2 k l hk hl
  obtain ⟨hslots, hchains, hsec, hkept⟩ := hfreed
  have hplace := mem_dirSlots.1 (mem_children hs)
  have hraw : (d₁ x.lba).slot x.off = x.raw := by
    rw [hsec x.lba (dirLbas_not_inTable hG (ho.dir_chain hp) hplace.1)]
    exact hplace.2.2.symm
  rw [hraw] at hd
  exact ⟨hr.symm, d₁, hd.symm, hslots, hchains, hkept⟩

theorem fatUnlink_absent {fuel : ℕ} {r : ℤ} (hx : G.keyed m p name = none)
    (hf : fatUnlink Disk.dev G fuel p name m = some (r, m')) : r = -1 ∧ m'.dev = m.dev := by
  have heq := fatUnlink_eq (G := G) fuel p name m
  rw [hf, Option.map_some, hx] at heq
  exact Prod.mk.inj (Option.some.inj heq)

/-- **`fat_unlink`** keeps a volume, and takes the entry with the key away. -/
theorem fatUnlink_spec (hG : GeoOk G) (hv : Volume G m.dev D X) (hp : p ∈ D) {fuel : ℕ} {r : ℤ}
    (hf : fatUnlink Disk.dev G fuel p name m = some (r, m')) :
    (r = -1 ∧ m'.dev = m.dev ∧ ∀ s ∈ G.children m.dev p, s.raw.name ≠ fatNameFromDot name) ∨
    r = 0 ∧ ∃ x ca cb, G.keyed m p name = some x ∧ G.children m.dev p = ca ++ x.toSlot :: cb ∧
      Volume G m'.dev (without D x.raw.firstCluster) X ∧
      (p ∈ without D x.raw.firstCluster → G.children m'.dev p = ca ++ cb) ∧
      (∀ q ∈ without D x.raw.firstCluster, q ≠ p → G.children m'.dev q = G.children m.dev q) ∧
      Kept G m.dev m'.dev ((G.heads m.dev D ∪ X) \ {p, x.raw.firstCluster}) := by
  cases hkey : G.keyed m p name with
  | none =>
      obtain ⟨hr, hd⟩ := fatUnlink_absent hkey hf
      refine Or.inl ⟨hr, hd, fun s hs hname => ?_⟩
      have := keyed_isSome.2 ⟨s, hs, hname⟩
      rw [hkey] at this
      cases this
  | some x =>
      obtain ⟨hs, -⟩ := keyed_toSlot hkey
      have ho := hv.toOwned
      obtain ⟨hr, d₁, hd, hslots, hchains, hkept⟩ := fatUnlink_freed hG ho hp hkey hf
      obtain ⟨hvol, hother, ca, cb, hold, hnew⟩ := hv.delete hG hp hs hslots hchains hd
      refine Or.inr ⟨hr, x, ca, cb, rfl, hold, hvol, hnew, hother, ?_⟩
      rw [hd]
      refine ho.setSlot_kept hG hp (mem_children hs) ?_ (hkept.mono ?_) _
      · exact Set.sdiff_subset_sdiff_right (by simp)
      · exact Set.sdiff_subset_sdiff_right (by simp)

/-! ### `fat_write` -/

theorem visible_patch (size first : ℕ) : (e.patch size first).isEnd = e.isEnd ∧
    (e.patch size first).visible = e.visible := by
  have hfirst : e.patch size first 0 = e 0 := Dirent.patch_apply (Or.inl (by omega))
  have hend : (e.patch size first).isEnd = e.isEnd := by rw [Dirent.isEnd, Dirent.isEnd, hfirst]
  refine ⟨hend, ?_⟩
  rw [Dirent.visible, Dirent.visible, Dirent.listed, Dirent.listed, hend, Dirent.isDeleted, Dirent.isDeleted,
    hfirst, Dirent.isDot_congr Dirent.name_patch]

/-- **The size and the first cluster of a file are stored** in its entry. -/
theorem Volume.flush (hG : GeoOk G) (hv : Volume G d D X) (hp : p ∈ D) (hs : s ∈ G.children d p)
    (hdir : s.raw.isDir = false) (hh : h < 2 ^ 32) (hfirst : h ∈ X ∨ s.raw.firstCluster = h) {size : ℕ}
    (hd' : d' = d.setSlot s (s.raw.patch size h)) :
    Volume G d' D (X \ {h}) ∧ (∀ q ∈ D, q ≠ p → G.children d' q = G.children d q) ∧
      ∃ ca cb, G.children d p = ca ++ s :: cb ∧ G.children d' p = ca ++ s.put (s.raw.patch size h) :: cb := by
  obtain ⟨as, bs, hsplit⟩ := List.append_of_mem (mem_children hs)
  have hvis := visible_of_mem hv hp hs
  obtain ⟨hend, hdot⟩ := isEnd_of_visible hvis
  have htidy := hv.tidy p hp
  have hplain : (s.raw.patch size h).plain = true := by
    rw [Dirent.plain_congr Dirent.attr_patch]
    exact htidy.plain s (mem_children hs)
  obtain ⟨hend', hvis'⟩ := visible_patch (e := s.raw) size h
  rw [hsplit] at htidy
  have hfit : Fits G d D p as s bs (s.raw.patch size h) := ⟨hp, hsplit, htidy.before hend, hplain, hend'.trans hend,
    (Dirent.isDot_congr Dirent.name_patch).trans hdot, Or.inr hdot⟩
  have hfc : (s.raw.patch size h).firstCluster = h := by
    rw [Dirent.firstCluster_patch, Nat.mod_eq_of_lt hh]
  obtain ⟨hold, hnew, hother⟩ := hv.setSlot_children hG hfit
  rw [hvis, if_pos rfl, List.append_assoc, List.singleton_append] at hold
  rw [hvis', hvis, if_pos rfl, List.append_assoc, List.singleton_append] at hnew
  -- no other entry has the key
  have hkey : ∀ t ∈ G.children d p, ¬s.At t → t.raw.name ≠ (s.raw.patch size h).name := by
    intro t ht hat
    have hkeys := hv.keys p hp
    rw [hold] at hkeys ht
    obtain ⟨-, htail, hcross⟩ := List.pairwise_append.1 hkeys
    obtain ⟨hbs, -⟩ := List.pairwise_cons.1 htail
    rw [Dirent.name_patch]
    rcases List.mem_append.1 ht with ht | ht
    · exact hcross t ht s List.mem_cons_self
    · rcases List.mem_cons.1 ht with rfl | ht
      · exact absurd ⟨rfl, rfl⟩ hat
      · exact (hbs t ht).symm
  have hvol := hv.putFile hG hfit ((Dirent.isDir_congr Dirent.attr_patch).trans hdir) (by
    rw [hfc]
    exact Or.inr (hfirst.imp_right fun h => ⟨hvis, h, hdir⟩)) hkey
  rw [hfc, ← hd'] at hvol
  rw [← hd'] at hnew hother
  exact ⟨hvol, hother, _, _, hold, hnew⟩

theorem toSlot_keyed_congr (m₁ : FatMem Disk) {x : Entry} {name' : Bytes}
    (hs : G.dirSlots m₁.dev p = G.dirSlots m.dev p) (hname : fatNameFromDot name' = fatNameFromDot name)
    (hx : G.keyed m p name = some x) : (G.keyed m₁ p name').map (·.toSlot) = some x.toSlot := by
  rw [map_toSlot_keyed, hs, hname, ← map_toSlot_keyed, hx, Option.map_some]

/-- **`fat_write`** through the node of a file that was just looked up keeps a volume: the call
writes to the chain of the file, or to a new one, and stores its size and first cluster in its entry. -/
theorem fatWrite_spec (hG : GeoOk G) (hv : Volume G m.dev D X) (hp : p ∈ D) {x : Entry} {fuel size offset : ℕ}
    {buf : ℕ → UInt8} {r : ℤ} {node' : FatNode} (hx : G.lookup m p name = some x) (hfile : x.raw.isDir = false)
    (hf : fatWrite Disk.dev G fuel (nodeOf true p name x.raw) buf size offset m = some (r, node', m')) :
    ∃ X', Volume G m'.dev D X' ∧ (∀ q ∈ D, q ≠ p → G.children m'.dev q = G.children m.dev q) ∧
      (r = -1 ∧ G.children m'.dev p = G.children m.dev p ∨
        ∃ ca cb t, G.children m.dev p = ca ++ x.toSlot :: cb ∧ G.children m'.dev p = ca ++ t :: cb ∧
          t.raw.name = x.raw.name ∧ t.raw.attr = x.raw.attr) := by
  rw [lookup_eq_keyed (hv.tidy p hp)] at hx
  obtain ⟨hs, -⟩ := keyed_toSlot hx
  have ho := hv.toOwned
  have htype : (nodeOf true p name x.raw).type = .file := by
    rw [nodeOf, Dirent.type, hfile]
    rfl
  -- the chain of the file
  obtain ⟨l, hl⟩ : ∃ l, (nodeOf true p name x.raw).inode = 0 ∧ l = [] ∨ G.IsChain m.dev (nodeOf true p name x.raw).inode l := by
    by_cases h₀ : x.raw.firstCluster = 0
    · exact ⟨[], Or.inl ⟨h₀, rfl⟩⟩
    · obtain ⟨l, hl⟩ := ho.chains.chain _ (Or.inl ⟨h₀, Or.inr ⟨p, hp, _, hs, rfl⟩⟩)
      exact ⟨l, Or.inr hl⟩
  -- the volume once the clusters are written
  have hwritten : ∀ {h : ℕ} {new : List ℕ} {n : ℕ} {d₁ : Disk}, ((nodeOf true p name x.raw).inode ≠ 0 →
      h = (nodeOf true p name x.raw).inode) → Written G m.dev d₁ h l new (u32 offset) n buf →
      ∃ X', Volume G d₁ D X' ∧ (h ∈ X' ∨ x.raw.firstCluster = h) ∧
        ∀ q ∈ D, G.dirSlots d₁ q = G.dirSlots m.dev q := by
    intro h new n d₁ hhead hw
    rcases hl with ⟨h₀, rfl⟩ | hl
    · obtain ⟨ho₁, hslots⟩ := ho.insert hG hw.chain hw.only fun c hc => (hw.free c (by simpa using hc)).2
      exact ⟨_, hv.of_slots ho₁ hslots, Or.inl (Set.mem_insert h X), hslots⟩
    · have h₀ : x.raw.firstCluster ≠ 0 := by
        have : 2 ≤ x.raw.firstCluster := (IsChain.valid hl hl.head_mem).1
        omega
      obtain rfl : h = x.raw.firstCluster := hhead h₀
      obtain ⟨ho₁, hslots⟩ := ho.written hG (Or.inl ⟨h₀, Or.inr ⟨p, hp, _, hs, rfl⟩⟩)
        ((ho.file p hp _ hs hfile).resolve_left h₀) hl hw
      exact ⟨X, hv.of_slots ho₁ hslots, Or.inr rfl, hslots⟩
  rcases fatWrite_written hG htype hl hf with ⟨rfl, -, -, hfail⟩ |
    ⟨h, new, done, d₁, -, -, hhead, hw, -, -, -, hflush⟩
  · rcases hfail with ⟨rfl, -⟩ | ⟨h, new, hhead, hw, -⟩
    · exact ⟨X, hv, fun _ _ _ => rfl, Or.inl ⟨rfl, rfl⟩⟩
    · obtain ⟨X', hvol, -, hslots⟩ := hwritten hhead hw
      exact ⟨X', hvol, fun q hq _ => children_congr (hslots q hq), Or.inl ⟨rfl, children_congr (hslots p hp)⟩⟩
  · obtain ⟨X', hvol, hfirst, hslots⟩ := hwritten hhead hw
    obtain ⟨lfn, hflush'⟩ := fatFlushDirent_eq (G := G) (nodeOf true p name x.raw).parent (nodeOf true p name x.raw).name
      (max (nodeOf true p name x.raw).size (u32 (u32 offset + done))) h ⟨d₁, m.lfn⟩
    rw [hflush', Option.some.injEq] at hflush
    have hslot : (G.keyed ⟨d₁, m.lfn⟩ p (name.take (vfsMaxName - 1))).map (·.toSlot) = some x.toSlot :=
      toSlot_keyed_congr _ (hslots p hp) (fatNameFromDot_take (by decide) name) hx
    obtain ⟨y, hy, hyx⟩ := Option.map_eq_some_iff.1 hslot
    have hkeyed : G.keyed ⟨d₁, m.lfn⟩ (nodeOf true p name x.raw).parent (nodeOf true p name x.raw).name = some y := hy
    rw [hkeyed, Option.elim_some, hyx] at hflush
    have hs₁ : x.toSlot ∈ G.children d₁ p := by
      rw [children_congr (hslots p hp)]
      exact hs
    have hlt : h < 2 ^ 32 := (IsChain.valid hw.chain hw.chain.head_mem).2.trans_lt G.lastCluster_lt
    have hdev := congrArg FatMem.dev hflush
    obtain ⟨hvol', hother, ca, cb, hold, hnew⟩ := hvol.flush hG hp hs₁ hfile hlt hfirst hdev.symm
    rw [children_congr (hslots p hp)] at hold
    refine ⟨_, hvol', fun q hq hqp => (hother q hq hqp).trans (children_congr (hslots q hq)),
      Or.inr ⟨ca, cb, _, hold, hnew, ?_, ?_⟩⟩
    · exact Dirent.name_cut.trans Dirent.name_patch
    · exact Dirent.attr_cut.trans Dirent.attr_patch

end FatState

end LighthOS
