/-
# What `fat_free_chain` frees

The loop of `fat_free_chain` has no record of where it was: it reads the successor of a
cluster, clears the entry, and goes on, whatever is in the table.  A chain that leads back
into itself ends where it comes to an entry that was cleared, so the loop returns
(`freeChain_isSome`), and what it clears are the entries of the clusters that the links led
to before the call, in every copy of the table, and nothing else (`fatFreeChain_exact`).

The reason is one step: with the entry of a cluster cleared, what its successor leads to,
together with the cluster itself, is what the cluster led to before (`reach_clear`).
-/

import LighthOS.Fs.FatCopies
import LighthOS.Fs.FatReturns

namespace LighthOS

namespace FatState

variable {G : FatState} {d d' : Disk} {c x : ℕ}

/-- **Exactly the chain is freed**: the entries of the clusters that are reached from the
first one lose their numbers, in every copy, and keep their top bits; nothing else changes. -/
structure FreesExactly (G : FatState) (d d' : Disk) (start : ℕ) : Prop where
  freed : ∀ f < G.numFats, ∀ x, G.Valid x → G.Reach d start x → G.rawAt d' f x % 2 ^ G.entryBits = 0
  top : ∀ f < G.numFats, ∀ x, G.Valid x → G.rawAt d' f x / 2 ^ G.entryBits = G.rawAt d f x / 2 ^ G.entryBits
  others : ∀ f < G.numFats, ∀ x ≤ G.lastCluster, ¬(G.Valid x ∧ G.Reach d start x) → G.rawAt d' f x = G.rawAt d f x
  outside : ∀ lba i, (∀ f < G.numFats, ∀ x, G.Valid x → ¬(lba = G.copyLba f x ∧ G.entryByte x % 512 ≤ i ∧
    i < G.entryByte x % 512 + G.entrySize)) → d' lba i = d lba i

/-! ### Links -/

theorem Reach.eq_of_next_zero (h : G.next d c = 0) (hr : G.Reach d c x) : x = c := by
  obtain ⟨-, hr⟩ := hr
  rcases Relation.ReflTransGen.cases_head hr with rfl | ⟨b, ⟨hb, hnext⟩, -⟩
  · rfl
  · exact absurd (hnext.symm.trans h) hb

/-- **One step**: what a cluster leads to is the cluster, and what its successor leads to
without its entry. -/
theorem reach_clear (hO : OwnEntries G) (hcopies : 0 < G.numFats) (hc : G.Valid c) (hnext : G.next d c ≠ 0) :
    G.Reach d c x ↔ x = c ∨ G.Reach (G.setEntry d c 0) (G.next d c) x := by
  have hsame : ∀ a, a ≠ c → G.next (G.setEntry d c 0) a = G.next d a := by
    intro a ha
    unfold next
    split_ifs with hrange
    · rfl
    · rw [hO.entryAt_setEntry hcopies hc.2 (by omega), if_neg ha]
  have hc₀ : c ≠ 0 := by have := hc.1; omega
  constructor
  · rintro ⟨-, hr⟩
    induction hr with
    | refl => exact Or.inl rfl
    | @tail a b _ hstep ih =>
        obtain ⟨hb, hab⟩ := hstep
        by_cases hac : a = c
        · -- the path is at the cluster, at its start or again
          subst hac
          exact Or.inr (hab ▸ Reach.refl hnext)
        · obtain ⟨-, hr⟩ := ih.resolve_left hac
          exact Or.inr ⟨hnext, hr.tail ⟨hb, by rw [hsame a hac, hab]⟩⟩
  · rintro (rfl | ⟨-, hr⟩)
    · exact Reach.refl hc₀
    · refine ⟨hc₀, Relation.ReflTransGen.head ⟨hnext, rfl⟩ ?_⟩
      refine Relation.ReflTransGen.mono (fun a b hstep => ?_) _ _ hr
      obtain ⟨hb, hab⟩ := hstep
      have hac : a ≠ c := by
        rintro rfl
        rw [next_setEntry_self hcopies] at hab
        exact hb hab.symm
      exact ⟨hb, (hsame a hac).symm.trans hab⟩

/-! ### The loop -/

theorem entryBits_pow (G : FatState) : 2 ^ G.entryBits = if G.isFat32 then 2 ^ 28 else 2 ^ 16 := by
  unfold entryBits
  split_ifs <;> rfl

/-- An entry that is cleared keeps its top bits. -/
theorem rawAt_clear_self (hO : OwnEntries G) (hc : c ≤ G.lastCluster) {f : ℕ} (hf : f < G.numFats) (d : Disk) :
    G.rawAt (G.setEntry d c 0) f c = G.rawAt d f c / 2 ^ G.entryBits * 2 ^ G.entryBits := by
  rw [rawAt_setEntry_self hO hc hf (by positivity), entryBits_pow]
  split_ifs with h32
  · rw [Nat.add_zero]
  · have hlt : G.rawAt d f c < 256 ^ G.entrySize := readLe_lt _ _ _
    unfold entrySize at hlt
    rw [if_neg h32] at hlt
    rw [Nat.div_eq_of_lt (show G.rawAt d f c < 2 ^ 16 from hlt), Nat.zero_mul]

/-- The round of the loop that clears the entry of a cluster. -/
theorem rawAt_clear (hO : OwnEntries G) (hc : c ≤ G.lastCluster) {f : ℕ} (hf : f < G.numFats)
    (hx : x ≤ G.lastCluster) (d : Disk) : G.rawAt (G.setEntry d c 0) f x =
      if x = c then G.rawAt d f x / 2 ^ G.entryBits * 2 ^ G.entryBits else G.rawAt d f x := by
  split_ifs with hxc
  · rw [hxc, rawAt_clear_self hO hc hf]
  · exact rawAt_setEntry_of_ne hO hc hx hxc hf 0 d

theorem FreesExactly.none (h : ∀ x, G.Valid x → ¬G.Reach d c x) : FreesExactly G d d c :=
  ⟨fun _ _ x hx hr => absurd hr (h x hx), fun _ _ _ _ => rfl, fun _ _ _ _ _ => rfl, fun _ _ _ => rfl⟩

/-- **A whole run of the loop**, from any cluster. -/
theorem freeChain_exact (hO : OwnEntries G) (hcopies : 0 < G.numFats) {fuel : ℕ} (h : G.freeChain fuel c d = some d') :
    FreesExactly G d d' c := by
  have hpos : 0 < 2 ^ G.entryBits := by positivity
  induction fuel generalizing c d with
  | zero => cases h
  | succ fuel ih =>
      rw [freeChain] at h
      split_ifs at h with hc hnext
      · -- the last cluster
        cases h
        have hreach : ∀ y, G.Reach d c y → y = c := fun y => Reach.eq_of_next_zero hnext
        refine ⟨fun f hf y hy hr => ?_, fun f hf y hy => ?_, fun f hf y hy hno => ?_, fun lba i hout => ?_⟩
        · rw [rawAt_clear hO hc.2 hf hy.2, if_pos (hreach y hr), Nat.mul_mod_left]
        · rw [rawAt_clear hO hc.2 hf hy.2]
          split_ifs
          · rw [Nat.mul_div_cancel _ hpos]
          · rfl
        · rw [rawAt_clear hO hc.2 hf hy, if_neg]
          rintro rfl
          exact hno ⟨hc, Reach.refl (by have := hc.1; omega)⟩
        · exact setEntry_byte hO hc.2 (fun f hf => hout f hf c hc) 0 d
      · obtain ⟨hfreed, htop, hothers, houtside⟩ := ih h
        have hreach : ∀ y, G.Reach d c y ↔ y = c ∨ G.Reach (G.setEntry d c 0) (G.next d c) y :=
          fun y => reach_clear hO hcopies hc hnext
        refine ⟨fun f hf y hy hr => ?_, fun f hf y hy => ?_, fun f hf y hy hno => ?_, fun lba i hout => ?_⟩
        · by_cases hr' : G.Reach (G.setEntry d c 0) (G.next d c) y
          · exact hfreed f hf y hy hr'
          · rw [hothers f hf y hy.2 fun hy' => hr' hy'.2, rawAt_clear hO hc.2 hf hy.2,
              if_pos (((hreach y).1 hr).resolve_right hr'), Nat.mul_mod_left]
        · rw [htop f hf y hy, rawAt_clear hO hc.2 hf hy.2]
          split_ifs
          · rw [Nat.mul_div_cancel _ hpos]
          · rfl
        · rw [hothers f hf y hy fun hy' => hno ⟨hy'.1, (hreach y).2 (Or.inr hy'.2)⟩, rawAt_clear hO hc.2 hf hy, if_neg]
          rintro rfl
          exact hno ⟨hc, (hreach y).2 (Or.inl rfl)⟩
        · rw [houtside lba i hout]
          exact setEntry_byte hO hc.2 (fun f hf => hout f hf c hc) 0 d
      · cases h
        refine .none fun y hy hr => hc ?_
        have hzero : G.next d' c = 0 := by
          rw [next, if_pos (by omega)]
        exact Reach.eq_of_next_zero hzero hr ▸ hy

/-- More rounds change nothing. -/
theorem freeChain_mono {fuel fuel' : ℕ} (hle : fuel ≤ fuel') (h : G.freeChain fuel c d = some d') :
    G.freeChain fuel' c d = some d' := by
  induction fuel generalizing fuel' c d with
  | zero => cases h
  | succ fuel ih =>
      obtain ⟨fuel', rfl⟩ := Nat.exists_eq_add_of_lt hle
      rw [freeChain] at h ⊢
      split_ifs at h ⊢
      · exact h
      · exact ih (by omega) h
      · exact h

/-- **`fat_free_chain` frees exactly the chain**, for every contents of the table and every
first cluster: it returns, and the entries that it changes are those of the clusters that are
reached by `fat_next_cluster`. -/
theorem fatFreeChain_exact (G : FatState) (hO : OwnEntries G) (hcopies : 0 < G.numFats) (m : FatMem Disk) (start : ℕ) :
    ∃ d', (∃ F, ∀ fuel ≥ F, fatFreeChain Disk.dev G fuel start m = some { m with dev := d' }) ∧
      FreesExactly G m.dev d' start := by
  obtain ⟨d', hd'⟩ := Option.isSome_iff_exists.1 (freeChain_isSome (c := start) (d := m.dev) hcopies (Nat.lt_succ_self _))
  refine ⟨d', ⟨(G.linked m.dev).card + 1, fun fuel hfuel => ?_⟩, freeChain_exact hO hcopies hd'⟩
  rw [fatFreeChain_disk, freeChain_mono hfuel hd', Option.map_some]

/-- The hypotheses of `fatFreeChain_exact` are satisfiable: a chain of a small volume that
leads back to its first cluster is freed. -/
theorem fatFreeChain_exact_small :
    ∃ d', (∃ F, ∀ fuel ≥ F, fatFreeChain Disk.dev smallFat fuel 2
        (freshMem (smallDisk (fun i => if i = 4 then 3 else if i = 6 then 2 else 0) zeroSector)) =
      some { freshMem (smallDisk (fun i => if i = 4 then 3 else if i = 6 then 2 else 0) zeroSector) with dev := d' }) ∧
      FreesExactly smallFat (smallDisk (fun i => if i = 4 then 3 else if i = 6 then 2 else 0) zeroSector) d' 2 :=
  fatFreeChain_exact smallFat geoOk_smallFat.tableOk.ownEntries (by decide) _ 2

/-- The boot sector of a volume of 1024 sectors with two copies of a table of one sector, for 256
clusters. -/
def twoTablesBoot : Sector := fun i =>
  match i with
  | 16 => 2
  | 19 => 0
  | 20 => 4
  | _ => smallBoot i

/-- The volume, with the third entry of each sector of the table at the end of a chain. -/
def twoTables : Disk := fun lba =>
  if lba = 0 then twoTablesBoot else fun i => if i = 4 ∨ i = 5 then 0xFF else 0

/-- **Where copies of the table overlap, another entry is cleared.**  The second copy of the entry of
cluster 2 is the entry of cluster 258, which no link leads to. -/
theorem fatFreeChain_clears_other : ∃ G node, fatMount Disk.dev 1024 twoTables = some (G, node) ∧ G.Valid 258 ∧
    ¬G.Reach twoTables 2 258 ∧ G.entryAt twoTables 258 = 0xFFFF ∧
    (fatFreeChain Disk.dev G 1 2 (freshMem twoTables)).map (fun m => G.entryAt m.dev 258) = some 0 := by
  have hrun : (fatMount Disk.dev 1024 twoTables).any (fun r => decide (r.1.Valid 258) &&
      r.1.next twoTables 2 == 0 && r.1.entryAt twoTables 258 == 0xFFFF &&
      (fatFreeChain Disk.dev r.1 1 2 (freshMem twoTables)).map (fun m => r.1.entryAt m.dev 258) == some 0) = true := by
    decide +kernel
  obtain ⟨⟨G, node⟩, hmount, hG⟩ := (Option.any_eq_true _ _).1 hrun
  simp only [Bool.and_eq_true, decide_eq_true_eq, beq_iff_eq] at hG
  obtain ⟨⟨⟨hvalid, hnext⟩, hentry⟩, hfree⟩ := hG
  refine ⟨G, node, hmount, hvalid, fun hr => ?_, hentry, hfree⟩
  cases Reach.eq_of_next_zero hnext hr

end FatState

end LighthOS
