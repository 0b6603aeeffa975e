/-
# The chains of a FAT volume

The clusters of a file or a directory as a list (`FatState.IsChain`), on a volume with
consistent geometry, and what the functions of `src/fs/fat.c` that work on chains do to
this list: `fat_walk_chain` goes along it and puts new clusters behind it
(`fatWalkChain_grown`), `fat_free_chain` frees exactly its clusters (`freeChain_freed`),
and the search of `fat_create` for the last cluster finds its last element
(`lastOfChain_eq`).

A cluster is in use if its entry is not `0`; the chains of a volume form a
`Linked.Forest`, and the relations `Grown` and `Freed` say what such a step leaves of it.
-/

import LighthOS.Fs.FatGeometry

namespace LighthOS

namespace FatState

/-- The successor of a cluster. -/
def follow (G : FatState) (d : Disk) (c : ℕ) : Option ℕ := toPtr (G.next d c)

/-- A cluster that is in use. -/
def Taken (G : FatState) (d : Disk) (c : ℕ) : Prop := G.Valid c ∧ G.entryAt d c ≠ 0

/-- The clusters from `h` to the end of the chain. -/
abbrev IsChain (G : FatState) (d : Disk) : ℕ → List ℕ → Prop := Linked.Chain (G.follow d) (G.Taken d)

/-- Chains that share no cluster. -/
abbrev Chains (G : FatState) (d : Disk) : Set ℕ → Prop := Linked.Forest (G.follow d) (G.Taken d)

/-- The sectors of the clusters of a list. -/
def InClusters (G : FatState) (l : List ℕ) (lba : ℕ) : Prop := ∃ c ∈ l, lba ∈ G.clusterLbas c

/-- From `d` to `d'` the clusters `new`, which were free, were cleared and put behind the chain
`l` of `h`, and nothing else was changed. -/
structure Grown (G : FatState) (d d' : Disk) (h : ℕ) (l new : List ℕ) : Prop where
  chain : G.IsChain d' h (l ++ new)
  free : ∀ c ∈ new, G.Valid c ∧ G.entryAt d c = 0
  zero : ∀ lba, G.InClusters new lba → d' lba = zeroSector
  entries : ∀ x, G.Valid x → x ∉ l ++ new → G.entryAt d' x = G.entryAt d x
  sectors : ∀ lba, ¬G.InTable lba → ¬G.InClusters new lba → d' lba = d lba

/-- From `d` to `d'` the clusters `l` were freed, and nothing else was changed. -/
structure Freed (G : FatState) (d d' : Disk) (l : List ℕ) : Prop where
  freed : ∀ x ∈ l, G.entryAt d' x = 0
  entries : ∀ x, G.Valid x → x ∉ l → G.entryAt d' x = G.entryAt d x
  sectors : ∀ lba, ¬G.InTable lba → d' lba = d lba

variable {G : FatState} {d d' d'' : Disk} {c h x v : ℕ} {l new new' : List ℕ}

theorem follow_eq_some {y : ℕ} (hy : y ≠ 0) : G.follow d x = some y ↔ G.next d x = y := toPtr_eq_some hy

theorem follow_eq_none : G.follow d x = none ↔ G.next d x = 0 := by
  unfold follow toPtr
  split_ifs with h <;> simp [h]

/-- Successors and clusters in use only depend on the entries. -/
theorem follow_congr (h : G.Valid x → G.entryAt d' x = G.entryAt d x) : G.follow d' x = G.follow d x := by
  unfold follow next
  split_ifs with hx
  · rfl
  · rw [h ⟨by omega, by omega⟩]

section

variable (hl : G.IsChain d h l)
include hl

theorem IsChain.valid (hx : x ∈ l) : G.Valid x := (hl.used x hx).1

theorem IsChain.ne_zero : h ≠ 0 := by
  have := (IsChain.valid hl hl.head_mem).1
  omega

theorem IsChain.congr (he : ∀ x ∈ l, G.entryAt d' x = G.entryAt d x) : G.IsChain d' h l :=
  Linked.Chain.congr hl (fun x hx => follow_congr fun _ => he x hx) fun x hx =>
    ⟨(hl.used x hx).1, by rw [he x hx]; exact (hl.used x hx).2⟩

/-- A chain has at most as many clusters as the volume. -/
theorem IsChain.length_lt : l.length < G.lastCluster := by
  have hsub : l ⊆ List.range' 2 (G.lastCluster - 1) := by
    intro x hx
    obtain ⟨h₁, h₂⟩ := IsChain.valid hl hx
    exact List.mem_range'_1.2 ⟨by omega, by omega⟩
  have hlen := (hl.nodup.subperm hsub).length_le
  obtain ⟨h₁, h₂⟩ := IsChain.valid hl hl.head_mem
  rw [List.length_range'] at hlen
  omega

/-- The walk along a chain comes to its clusters. -/
theorem IsChain.clustersFrom_eq {n : ℕ} (hn : l.length < n) : G.clustersFrom d n h = l := by
  have hwalk : ∀ (l : List ℕ) (n c : ℕ), Linked.Segment (G.follow d) (toPtr c) l none →
      (∀ x ∈ l, G.Valid x) → l.length < n → G.clustersFrom d n c = l := by
    intro l
    induction l with
    | nil =>
        intro n c hseg _ hn
        obtain ⟨n, rfl⟩ : ∃ k, n = k + 1 := ⟨n - 1, by simp at hn; omega⟩
        rw [clustersFrom, if_neg]
        rintro ⟨h₁, -⟩
        have hnone : toPtr c = none := hseg
        rw [toPtr_of_ne_zero (by omega)] at hnone
        cases hnone
    | cons a l ih =>
        intro n c hseg hval hn
        obtain ⟨n, rfl⟩ : ∃ k, n = k + 1 := ⟨n - 1, by simp at hn; omega⟩
        obtain ⟨ha, hrest⟩ := hseg
        have hva := hval a List.mem_cons_self
        obtain rfl : c = a := (toPtr_eq_some (by have := hva.1; omega)).1 ha
        rw [clustersFrom, if_pos hva, ih n _ hrest (fun x hx => hval x (List.mem_cons_of_mem _ hx))
          (by simpa using hn)]
  have hval : ∀ x ∈ l, G.Valid x := fun x hx => IsChain.valid hl hx
  refine hwalk l n h ?_ hval hn
  have h₀ : h ≠ 0 := by
    have := (hval h hl.head_mem).1
    omega
  rw [toPtr_of_ne_zero h₀]
  exact hl.segment

end

theorem clustersFrom_zero (n : ℕ) : G.clustersFrom d n 0 = [] := by
  cases n with
  | zero => rfl
  | succ n => rw [clustersFrom, if_neg (by omega)]

/-! ### Entries -/

theorem link_low (hG : GeoOk G) (hv : G.Valid v) : G.link (G.low v) = v := by
  obtain ⟨h₁, h₂⟩ := hv
  have hnum := hG.numbers
  have hlast := hG.lastCluster_eq
  have hlow : G.low v = v := by
    unfold low
    unfold eocMin at hnum
    split_ifs at hnum ⊢ <;> exact Nat.mod_eq_of_lt (by omega)
  rw [hlow, link, if_neg (by omega)]

theorem link_low_eoc (G : FatState) : G.link (G.low G.eoc) = 0 := by
  refine if_pos (Or.inl ?_)
  unfold low eoc eocMin
  split_ifs <;> omega

theorem low_eoc_ne (G : FatState) : G.low G.eoc ≠ 0 := by
  unfold low eoc
  split_ifs <;> omega

theorem low_ne_zero (hG : GeoOk G) (hv : G.Valid v) : G.low v ≠ 0 := by
  intro h₀
  have := link_low hG hv
  rw [h₀, link_zero] at this
  have := hv.1
  omega

section Entries

variable (hG : GeoOk G)
include hG

theorem follow_setEntry_of_ne (hc : G.Valid c) (hx : x ≠ c) : G.follow (G.setEntry d c v) x = G.follow d x :=
  follow_congr fun h => by rw [hG.entryAt_setEntry hc.2 h.2, if_neg hx]

theorem follow_setEntry_self (hc : G.Valid c) : G.follow (G.setEntry d c v) c = toPtr (G.link (G.low v)) := by
  obtain ⟨h₁, h₂⟩ := id hc
  rw [follow, next, if_neg (by omega), hG.entryAt_setEntry hc.2 hc.2, if_pos rfl]

/-! ### Allocation -/

theorem entryAt_claim (hc : G.Valid c) (hx : G.Valid x) :
    G.entryAt (G.claim d c) x = if x = c then G.low G.eoc else G.entryAt d x := by
  have hout : G.entryAt (G.claim d c) x = G.entryAt (G.setEntry d c G.eoc) x :=
    hG.entryAt_outside (fun lba hlba => if_neg fun h => hG.cluster_not_inTable hc h hlba) hx.2
  rw [hout, hG.entryAt_setEntry hc.2 hx.2]

omit hG in
theorem claim_of_mem {lba : ℕ} (h : lba ∈ G.clusterLbas c) : G.claim d c lba = zeroSector := if_pos h

theorem claim_of_notMem (hc : G.Valid c) {lba : ℕ} (h : lba ∉ G.clusterLbas c) (ht : ¬G.InTable lba) :
    G.claim d c lba = d lba := by
  rw [claim, clear, if_neg h, hG.setEntry_outside hc.2 ht]

/-- **A cluster that is allocated** is a chain of its own. -/
theorem isChain_claim (hc : G.Valid c) : G.IsChain (G.claim d c) c [c] := by
  have he : G.entryAt (G.claim d c) c = G.low G.eoc := by rw [entryAt_claim hG hc hc, if_pos rfl]
  refine .singleton ?_ ⟨hc, by rw [he]; exact G.low_eoc_ne⟩
  rw [follow_eq_none, next, he, link_low_eoc, ite_self]

/-- **A free cluster put behind a chain.** -/
theorem grown_link (hl : G.IsChain d h (l ++ [x])) (hc : G.Valid c) (hfree : G.entryAt d c = 0) :
    Grown G d (G.setEntry (G.claim d c) x c) h (l ++ [x]) [c] := by
  have hx : G.Valid x := IsChain.valid hl (by simp)
  have hcl : c ∉ l ++ [x] := fun hmem => (hl.used c hmem).2 hfree
  have hcx : c ≠ x := fun h => hcl (by simp [h])
  have hentry : ∀ y, G.Valid y → y ≠ x → y ≠ c →
      G.entryAt (G.setEntry (G.claim d c) x c) y = G.entryAt d y := by
    intro y hy hyx hyc
    rw [hG.entryAt_setEntry hx.2 hy.2, if_neg hyx, entryAt_claim hG hc hy, if_neg hyc]
  have hself : G.entryAt (G.setEntry (G.claim d c) x c) x = G.low c := by
    rw [hG.entryAt_setEntry hx.2 hx.2, if_pos rfl]
  have hnew : G.entryAt (G.setEntry (G.claim d c) x c) c = G.low G.eoc := by
    rw [hG.entryAt_setEntry hx.2 hc.2, if_neg hcx, entryAt_claim hG hc hc, if_pos rfl]
  have hne : ∀ y ∈ l, y ≠ x ∧ y ≠ c := by
    intro y hy
    have hnodup := (List.nodup_append.1 hl.nodup).2.2
    exact ⟨fun he => hnodup y hy x (by simp) he, fun he => hcl (by simp [← he, hy])⟩
  refine ⟨?_, ?_, ?_, ?_, ?_⟩
  · refine hl.snoc ?_ ?_ (fun y hy => ?_) (fun y hy => ?_) ⟨hc, by rw [hnew]; exact G.low_eoc_ne⟩
    · rw [follow_setEntry_self hG hx, link_low hG hc, toPtr_of_ne_zero (by have := hc.1; omega)]
    · rw [follow_setEntry_of_ne hG hx hcx]
      exact Linked.Chain.next_last (l := []) (isChain_claim hG hc)
    · exact follow_congr fun hy' => hentry y hy' (hne y hy).1 (hne y hy).2
    · rcases List.mem_append.1 hy with hy' | hy'
      · refine ⟨(hl.used y hy).1, ?_⟩
        rw [hentry y (hl.used y hy).1 (hne y hy').1 (hne y hy').2]
        exact (hl.used y hy).2
      · obtain rfl := List.mem_singleton.1 hy'
        exact ⟨hx, by rw [hself]; exact low_ne_zero hG hc⟩
  · intro y hy
    obtain rfl := List.mem_singleton.1 hy
    exact ⟨hc, hfree⟩
  · rintro lba ⟨y, hy, hlba⟩
    obtain rfl := List.mem_singleton.1 hy
    rw [hG.setEntry_outside hx.2 (hG.cluster_not_inTable hc hlba), claim_of_mem hlba]
  · intro y hy hyl
    simp only [List.mem_append, List.mem_singleton, not_or] at hyl
    exact hentry y hy hyl.1.2 hyl.2
  · intro lba ht hlba
    rw [hG.setEntry_outside hx.2 ht, claim_of_notMem hG hc (fun h => hlba ⟨c, by simp, h⟩) ht]

end Entries

/-! ### Growing and freeing -/

theorem Grown.refl (hl : G.IsChain d h l) : Grown G d d h l [] :=
  ⟨by rwa [List.append_nil], by simp, fun lba ⟨_, hc, _⟩ => by simp at hc, fun _ _ _ => rfl, fun _ _ _ => rfl⟩

theorem Grown.trans (hG : GeoOk G) (hg : Grown G d d' h l new) (hg' : Grown G d' d'' h (l ++ new) new') :
    Grown G d d'' h l (new ++ new') := by
  have hfree : ∀ c ∈ new', G.Valid c ∧ c ∉ l ++ new := by
    intro c hc
    obtain ⟨hv, h₀⟩ := hg'.free c hc
    exact ⟨hv, fun hmem => (hg.chain.used c hmem).2 h₀⟩
  refine ⟨by rw [← List.append_assoc]; exact hg'.chain, fun c hc => ?_, fun lba hlba => ?_, fun x hx hxl => ?_,
    fun lba ht hlba => ?_⟩
  · rcases List.mem_append.1 hc with hc | hc
    · exact hg.free c hc
    · rw [← hg.entries c (hfree c hc).1 (hfree c hc).2]
      exact hg'.free c hc
  · by_cases hnew' : G.InClusters new' lba
    · exact hg'.zero lba hnew'
    · obtain ⟨c, hc, hmem⟩ := hlba
      rcases List.mem_append.1 hc with hc | hc
      · rw [hg'.sectors lba (hG.cluster_not_inTable (hg.free c hc).1 hmem) hnew', hg.zero lba ⟨c, hc, hmem⟩]
      · exact absurd ⟨c, hc, hmem⟩ hnew'
  · rw [← List.append_assoc, List.mem_append, not_or] at hxl
    rw [hg'.entries x hx (by rw [List.mem_append, not_or]; exact hxl), hg.entries x hx hxl.1]
  · have hboth : ¬G.InClusters new lba ∧ ¬G.InClusters new' lba :=
      ⟨fun ⟨c, hc, hm⟩ => hlba ⟨c, List.mem_append_left _ hc, hm⟩,
        fun ⟨c, hc, hm⟩ => hlba ⟨c, List.mem_append_right _ hc, hm⟩⟩
    rw [hg'.sectors lba ht hboth.2, hg.sectors lba ht hboth.1]

/-- **A chain that grows** stays apart from the others. -/
theorem Chains.grown {H : Set ℕ} (hF : G.Chains d H) (hh : h ∈ H) (hl : G.IsChain d h l)
    (hg : Grown G d d' h l new) : G.Chains d' H := by
  have hout : ∀ y, G.Taken d y → y ∉ l → G.entryAt d' y = G.entryAt d y := by
    intro y hy hyl
    refine hg.entries y hy.1 fun hmem => ?_
    rcases List.mem_append.1 hmem with hmem | hmem
    · exact hyl hmem
    · exact hy.2 (hg.free y hmem).2
  refine Linked.Forest.extend hF hh hl hg.chain (fun y hy ht => ht.2 (hg.free y hy).2)
    (fun y hy hyl => follow_congr fun _ => hout y hy hyl) fun y hy hyl => ⟨hy.1, ?_⟩
  rw [hout y hy hyl]
  exact hy.2

/-- **A chain that is freed** leaves the others. -/
theorem Chains.freed {H : Set ℕ} (hF : G.Chains d H) (hh : h ∈ H) (hl : G.IsChain d h l)
    (hf : Freed G d d' l) : G.Chains d' (H \ {h}) :=
  Linked.Forest.free hF hh hl (fun y hy hyl => follow_congr fun _ => hf.entries y hy.1 hyl)
    fun y hy hyl => ⟨hy.1, by rw [hf.entries y hy.1 hyl]; exact hy.2⟩

/-- Stores outside of the table leave the chains. -/
theorem Chains.congr {H : Set ℕ} (hF : G.Chains d H) (he : ∀ x, G.Valid x → G.entryAt d' x = G.entryAt d x) :
    G.Chains d' H :=
  Linked.Forest.congr hF (fun x hx => follow_congr fun _ => he x hx.1) fun x hx =>
    ⟨hx.1, by rw [he x hx.1]; exact hx.2⟩

end FatState

open FatState

variable {G : FatState} {h c x : ℕ} {l new : List ℕ} {d d' : Disk} {m m' : FatMem Disk}

/-- **`fat_free_chain`** frees the clusters of a chain. -/
theorem freeChain_freed (hG : GeoOk G) (hl : G.IsChain d h l) {fuel : ℕ} (hf : G.freeChain fuel h d = some d') :
    Freed G d d' l := by
  induction l generalizing d h fuel with
  | nil => cases hl.segment
  | cons a l ih =>
      obtain ⟨⟨ha, hseg⟩, hused⟩ := hl
      obtain rfl := Option.some.inj ha
      have hv := (hused h List.mem_cons_self).1
      have hwhole : Linked.Segment (G.follow d) (some h) (h :: l) none := ⟨rfl, hseg⟩
      have hnodup : h ∉ l := (List.nodup_cons.1 hwhole.nodup).1
      cases fuel with
      | zero => cases hf
      | succ fuel =>
          rw [freeChain, if_pos hv] at hf
          have hset : ∀ y, G.Valid y → y ≠ h → G.entryAt (G.setEntry d h 0) y = G.entryAt d y := by
            intro y hy hyh
            rw [hG.entryAt_setEntry hv.2 hy.2, if_neg hyh]
          have hzero : G.entryAt (G.setEntry d h 0) h = 0 := by
            rw [hG.entryAt_setEntry hv.2 hv.2, if_pos rfl, low_zero]
          by_cases hnext : G.next d h = 0
          · rw [if_pos hnext] at hf
            obtain rfl := Option.some.inj hf
            rw [follow_eq_none.2 hnext] at hseg
            cases l with
            | cons b l => cases hseg.1
            | nil =>
                refine ⟨fun y hy => ?_, fun y hy hyl => hset y hy (by simpa using hyl),
                  fun lba ht => hG.setEntry_outside hv.2 ht d 0⟩
                rw [List.mem_singleton.1 hy, hzero]
          · rw [if_neg hnext] at hf
            cases l with
            | nil => exact absurd (follow_eq_none.1 hseg) hnext
            | cons b l =>
                obtain ⟨hb, hseg⟩ := hseg
                have hbv := (hused b (by simp)).1
                have hnb : G.next d h = b := (follow_eq_some (by have := hbv.1; omega)).1 hb
                have hrest : G.IsChain d b (b :: l) :=
                  ⟨⟨rfl, hseg⟩, fun y hy => hused y (List.mem_cons_of_mem _ hy)⟩
                have hrest' : G.IsChain (G.setEntry d h 0) b (b :: l) := IsChain.congr hrest fun y hy =>
                  hset y (IsChain.valid hrest hy) fun he => hnodup (he ▸ hy)
                rw [hnb] at hf
                have hF := ih hrest' hf
                refine ⟨fun y hy => ?_, fun y hy hyl => ?_, fun lba ht => ?_⟩
                · rcases List.mem_cons.1 hy with rfl | hy
                  · rw [hF.entries y hv hnodup, hzero]
                  · exact hF.freed y hy
                · rw [List.mem_cons, not_or] at hyl
                  rw [hF.entries y hy hyl.2, hset y hy hyl.1]
                · rw [hF.sectors lba ht, hG.setEntry_outside hv.2 ht]

/-- **The last cluster of a chain.** -/
theorem lastOfChain_eq {fuel y : ℕ} (hl : G.IsChain m.dev h (l ++ [x]))
    (hf : lastOfChain Disk.dev G fuel h m = some (y, m')) : y = x ∧ m' = m := by
  induction l generalizing h fuel with
  | nil =>
      obtain ⟨ha, hseg⟩ := hl.segment
      obtain rfl := Option.some.inj ha
      cases fuel with
      | zero => cases hf
      | succ fuel =>
          rw [lastOfChain, fatNextCluster_disk] at hf
          simp only [if_pos (follow_eq_none.1 hseg)] at hf
          obtain ⟨rfl, rfl⟩ := Prod.mk.inj (Option.some.inj hf)
          exact ⟨rfl, rfl⟩
  | cons a l ih =>
      obtain ⟨⟨ha, hseg⟩, hused⟩ := hl
      obtain rfl := Option.some.inj ha
      change Linked.Segment _ _ (l ++ [x]) none at hseg
      obtain ⟨b, r, hbr⟩ : ∃ b r, l ++ [x] = b :: r := List.exists_cons_of_ne_nil (by simp)
      have hb : G.follow m.dev h = some b := by
        rw [hbr] at hseg
        exact hseg.1
      have hbv := (hused b (by rw [List.cons_append, hbr]; simp)).1
      have hnb : G.next m.dev h = b := (follow_eq_some (by have := hbv.1; omega)).1 hb
      rw [hb] at hseg
      cases fuel with
      | zero => cases hf
      | succ fuel =>
          rw [lastOfChain] at hf
          simp only [fatNextCluster_disk, hnb, if_neg (show b ≠ 0 by have := hbv.1; omega)] at hf
          exact ih ⟨hseg, fun y hy => hused y (List.mem_cons_of_mem _ hy)⟩ hf

/-- The element behind which a list has none is its last one. -/
theorem eq_concat_of_getElem? {α : Type*} {l : List α} {i : ℕ} {a : α} (ha : l[i]? = some a)
    (hnone : l[i + 1]? = none) : ∃ l₀, l = l₀ ++ [a] ∧ l₀.length = i := by
  obtain ⟨hi, rfl⟩ := List.getElem?_eq_some_iff.1 ha
  rw [List.getElem?_eq_none_iff] at hnone
  refine ⟨l.take i, ?_, by simp; omega⟩
  have hdrop : l.drop i = [l[i]] := by
    rw [List.drop_eq_getElem_cons hi, List.drop_of_length_le hnone]
  rw [← hdrop, List.take_append_drop]

/-- The clusters along a chain. -/
theorem FatState.IsChain.next_getElem? (hl : G.IsChain d h l) {i : ℕ} (hc : l[i]? = some c) :
    G.next d c = (l[i + 1]?).getD 0 := by
  obtain ⟨l₁, l₂, rfl, rfl⟩ : ∃ l₁ l₂, l = l₁ ++ c :: l₂ ∧ l₁.length = i := by
    obtain ⟨hi, rfl⟩ := List.getElem?_eq_some_iff.1 hc
    exact ⟨l.take i, l.drop (i + 1), by simp, by simp; omega⟩
  rw [List.getElem?_append_right (by omega), Nat.add_sub_cancel_left, List.getElem?_cons_succ]
  cases l₂ with
  | nil => exact follow_eq_none.1 (Linked.Chain.next_last hl)
  | cons b l₂ =>
      have hbv := IsChain.valid hl (x := b) (by simp)
      rw [List.getElem?_cons_zero, Option.getD_some]
      exact (follow_eq_some (by have := hbv.1; omega)).1 (Linked.Chain.tail hl).1

/-- **`fat_walk_chain` without allocation**: the cluster so many links further, `0` behind the
end. -/
theorem fatWalkChain_false (hl : G.IsChain m.dev h l) (fuel n : ℕ) {i : ℕ} (hc : l[i]? = some c) :
    fatWalkChain Disk.dev G fuel false n c m = some ((l[i + n]?).getD 0, m) := by
  induction n generalizing i c with
  | zero => rw [fatWalkChain, Nat.add_zero, hc, Option.getD_some]
  | succ n ih =>
      rw [fatWalkChain, fatNextCluster_disk]
      simp only [IsChain.next_getElem? hl hc]
      cases hnext : l[i + 1]? with
      | none =>
          have hnone : l[i + (n + 1)]? = none := by
            rw [List.getElem?_eq_none_iff] at hnext ⊢
            omega
          simp [hnone]
      | some y =>
          have hv := IsChain.valid hl (List.mem_of_getElem? hnext)
          rw [Option.getD_some, if_pos (by have := hv.1; omega), ih hnext,
            show i + 1 + n = i + (n + 1) by omega]

/-- **`fat_walk_chain` with allocation**: the chain grows until the cluster is there, or no
cluster is free. -/
theorem fatWalkChain_grown (hG : GeoOk G) {fuel n i r : ℕ} (hl : G.IsChain m.dev h l) (hc : l[i]? = some c)
    (hf : fatWalkChain Disk.dev G fuel true n c m = some (r, m')) :
    ∃ new, Grown G m.dev m'.dev h l new ∧ m'.lfn = m.lfn ∧
      ((l ++ new)[i + n]? = some r ∨ r = 0 ∧ G.firstFree m'.dev = none ∧ (l ++ new).length ≤ i + n) := by
  induction n generalizing i c l m with
  | zero =>
      obtain ⟨rfl, rfl⟩ := Prod.mk.inj (Option.some.inj hf)
      exact ⟨[], .refl hl, rfl, Or.inl (by simpa using hc)⟩
  | succ n ih =>
      rw [fatWalkChain, fatNextCluster_disk] at hf
      simp only [IsChain.next_getElem? hl hc] at hf
      have hi := (List.getElem?_eq_some_iff.1 hc).1
      cases hnext : l[i + 1]? with
      | some y =>
          have hv := IsChain.valid hl (List.mem_of_getElem? hnext)
          rw [hnext, Option.getD_some, if_pos (by have := hv.1; omega)] at hf
          obtain ⟨new, hg, hlfn, hr⟩ := ih hl hnext hf
          refine ⟨new, hg, hlfn, ?_⟩
          rwa [show i + (n + 1) = i + 1 + n by omega]
      | none =>
          -- the cluster is the last one: a free cluster is put behind it
          obtain ⟨l₀, rfl, rfl⟩ := eq_concat_of_getElem? hc hnext
          simp only [hnext, Option.getD_none, ne_eq, not_true_eq_false, if_false, Bool.not_true,
            Bool.false_eq_true] at hf
          obtain ⟨⟨nc, m₁⟩, halloc, hrest⟩ := Option.bind_eq_some_iff.1 hf
          clear hf
          have halloc := fatAllocCluster_some hG.lastCluster_succ halloc
          cases hfree : G.firstFree m.dev with
          | none =>
              rw [hfree] at halloc
              obtain ⟨rfl, rfl⟩ := Prod.mk.inj halloc
              obtain ⟨rfl, rfl⟩ := Prod.mk.inj (Option.some.inj hrest)
              exact ⟨[], .refl hl, rfl, Or.inr ⟨rfl, hfree, by simp⟩⟩
          | some y =>
              rw [hfree] at halloc
              obtain ⟨rfl, rfl⟩ := Prod.mk.inj halloc
              obtain ⟨h₂, hle, h₀⟩ := freeFrom_eq_some hfree
              have hv : G.Valid nc := ⟨h₂, hle⟩
              simp only [fatSetCluster_disk, if_neg (show nc ≠ 0 by omega)] at hrest
              have hgrow := grown_link hG hl hv h₀
              have hc' : (l₀ ++ [c] ++ [nc])[l₀.length + 1]? = some nc := by
                rw [List.getElem?_append_right (by simp)]
                simp
              obtain ⟨new, hg, hlfn, hr⟩ := ih (m := ⟨G.setEntry (G.claim m.dev nc) c nc, m.lfn⟩)
                hgrow.chain hc' hrest
              refine ⟨nc :: new, hgrow.trans hG hg, hlfn, ?_⟩
              rw [show l₀.length + (n + 1) = l₀.length + 1 + n by omega]
              simpa only [List.append_assoc, List.cons_append, List.nil_append] using hr

end LighthOS
