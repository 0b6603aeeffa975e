/-
# The table of a FAT volume, on a device without errors

What `fat_next_cluster`, `fat_set_cluster`, `fat_alloc_cluster` and `fat_free_chain` do to
the sectors of a disk.  The links are read from the first copy of the table
(`FatState.entryAt`), and a store to an entry goes to every copy: it changes exactly the
entries that are read from a place that one of the copies is stored to
(`FatState.entryAt_setEntry`), whatever the geometry of the volume is.
-/

import LighthOS.Fs.Fat

namespace LighthOS

@[simp] theorem readSector_disk (m : FatMem Disk) (lba : ℕ) :
    m.readSector Disk.dev lba = (some (m.dev lba), m) := rfl

@[simp] theorem writeSector_disk (m : FatMem Disk) (lba : ℕ) (buf : Sector) :
    m.writeSector Disk.dev lba buf = (true, { m with dev := Function.update m.dev lba buf }) := rfl

theorem u32_lt (n : ℕ) : u32 n < 2 ^ 32 := Nat.mod_lt _ (by norm_num)

theorem u32_of_lt {n : ℕ} (h : n < 2 ^ 32) : u32 n = n := Nat.mod_eq_of_lt h

namespace FatState

variable (G : FatState)

/-! ### Entries -/

/-- The entry of a cluster, in the first copy of the table. -/
def entryAt (d : Disk) (c : ℕ) : ℕ := G.entry (d (G.entryLba c)) (G.entryByte c % 512)

/-- The successor of a cluster, `0` for none. -/
def next (d : Disk) (c : ℕ) : ℕ :=
  if c < 2 ∨ G.lastCluster < c then 0 else G.link (G.entryAt d c)

/-- The clusters that are reached from a first cluster. -/
def Reach (d : Disk) (h x : ℕ) : Prop := h ≠ 0 ∧ Relation.ReflTransGen (fun a b => b ≠ 0 ∧ G.next d a = b) h x

/-- The bits of a value that an entry holds. -/
def low (v : ℕ) : ℕ := if G.isFat32 then v % 2 ^ 28 else v % 2 ^ 16

/-- The sector of a copy of the table that holds the entry of a cluster. -/
def copyLba (f c : ℕ) : ℕ := u32 (G.fatStartLba + f * G.sectorsPerFat + G.entryByte c / 512)

/-- A store to the entry of a cluster in the given copies. -/
def setIn (c : ℕ) : List ℕ → ℕ → Disk → Disk
  | [], _, d => d
  | f :: copies, v, d =>
      let buf := d (G.copyLba f c)
      let v := G.merged buf (G.entryByte c % 512) v
      setIn c copies v (Function.update d (G.copyLba f c)
        (buf.put (G.entryByte c % 512) G.entrySize (leBytes v)))

/-- The disk after `fat_set_cluster`. -/
def setEntry (d : Disk) (c v : ℕ) : Disk := G.setIn c (List.range G.numFats) v d

variable {G}

theorem lastCluster_lt : G.lastCluster < 2 ^ 32 := u32_lt _

theorem next_le (d : Disk) (c : ℕ) : G.next d c ≤ G.lastCluster := by
  unfold next link
  split_ifs <;> omega

theorem Reach.refl {d : Disk} {h : ℕ} (hh : h ≠ 0) : G.Reach d h h := ⟨hh, .refl⟩

theorem link_zero : G.link 0 = 0 := by
  unfold link
  rw [if_pos (Or.inr (Or.inl (by omega)))]

theorem low_zero : G.low 0 = 0 := by
  unfold low
  split_ifs <;> rfl

theorem copyLba_zero (c : ℕ) : G.copyLba 0 c = G.entryLba c := by
  rw [copyLba, entryLba, Nat.zero_mul, Nat.add_zero]

/-- Entries do not cross the end of a sector, and two of them are equal or apart. -/
theorem entryByte_mod (c : ℕ) : G.entryByte c % 512 % G.entrySize = 0 ∧
    G.entryByte c % 512 + G.entrySize ≤ 512 := by
  unfold entryByte entrySize u32
  split_ifs <;> omega

theorem low_merged (buf : Sector) (off v : ℕ) : G.low (G.merged buf off v) = G.low v := by
  unfold low merged
  split_ifs
  · omega
  · rfl

theorem entry_put_self (buf : Sector) (off v : ℕ) :
    G.entry (buf.put off G.entrySize (leBytes v)) off = G.low v := by
  unfold entry low entrySize
  split_ifs
  · rw [readLe_put_self]
    omega
  · rw [readLe_put_self]
    rfl

theorem entry_put_of_ne {buf : Sector} {c x v : ℕ} (h : G.entryByte x % 512 ≠ G.entryByte c % 512) :
    G.entry (buf.put (G.entryByte c % 512) G.entrySize (leBytes v)) (G.entryByte x % 512) =
      G.entry buf (G.entryByte x % 512) := by
  obtain ⟨hc, -⟩ := entryByte_mod (G := G) c
  obtain ⟨hx, -⟩ := entryByte_mod (G := G) x
  unfold entry
  unfold entrySize at *
  split_ifs at * with h32
  · rw [readLe_put_of_apart (by omega)]
  · rw [readLe_put_of_apart (by omega)]

/-- **A store to one copy** changes the entries that are read from its place. -/
theorem entryAt_update (d : Disk) (lba c x v : ℕ) :
    G.entryAt (Function.update d lba ((d lba).put (G.entryByte c % 512) G.entrySize (leBytes v))) x =
      if G.entryLba x = lba ∧ G.entryByte x % 512 = G.entryByte c % 512 then G.low v
      else G.entryAt d x := by
  unfold entryAt
  by_cases hlba : G.entryLba x = lba
  · subst hlba
    rw [Function.update_self]
    by_cases hoff : G.entryByte x % 512 = G.entryByte c % 512
    · rw [if_pos ⟨rfl, hoff⟩, hoff, entry_put_self]
    · rw [if_neg fun h => hoff h.2, entry_put_of_ne hoff]
  · rw [Function.update_of_ne hlba, if_neg fun h => hlba h.1]

theorem entryAt_setIn (c x : ℕ) (copies : List ℕ) (v : ℕ) (d : Disk) :
    G.entryAt (G.setIn c copies v d) x =
      if ∃ f ∈ copies, G.entryLba x = G.copyLba f c ∧ G.entryByte x % 512 = G.entryByte c % 512 then
        G.low v
      else G.entryAt d x := by
  induction copies generalizing v d with
  | nil => simp [setIn]
  | cons f copies ih =>
      rw [setIn, ih, low_merged, entryAt_update, low_merged]
      simp only [List.exists_mem_cons_iff]
      by_cases hrest : ∃ g ∈ copies,
          G.entryLba x = G.copyLba g c ∧ G.entryByte x % 512 = G.entryByte c % 512
      · rw [if_pos hrest, if_pos (Or.inr hrest)]
      · simp only [hrest, or_false, if_false]

/-- **What `fat_set_cluster` changes in the table.** -/
theorem entryAt_setEntry (d : Disk) (c v x : ℕ) :
    G.entryAt (G.setEntry d c v) x =
      if ∃ f < G.numFats,
          G.entryLba x = G.copyLba f c ∧ G.entryByte x % 512 = G.entryByte c % 512 then
        G.low v
      else G.entryAt d x := by
  rw [setEntry, entryAt_setIn]
  simp only [List.mem_range]

/-- The entry itself is changed, if the volume has a table at all. -/
theorem entryAt_setEntry_self (h : 0 < G.numFats) (d : Disk) (c v : ℕ) :
    G.entryAt (G.setEntry d c v) c = G.low v := by
  rw [entryAt_setEntry, if_pos ⟨0, h, (copyLba_zero c).symm, rfl⟩]

theorem setIn_of_ne {c lba : ℕ} {copies : List ℕ} (h : ∀ f ∈ copies, lba ≠ G.copyLba f c) (v : ℕ)
    (d : Disk) : G.setIn c copies v d lba = d lba := by
  induction copies generalizing v d with
  | nil => rfl
  | cons f copies ih =>
      rw [setIn, ih fun g hg => h g (List.mem_cons_of_mem f hg),
        Function.update_of_ne (h f List.mem_cons_self)]

/-- Other sectors are not changed. -/
theorem setEntry_of_ne {c lba : ℕ} (h : ∀ f < G.numFats, lba ≠ G.copyLba f c) (v : ℕ) (d : Disk) :
    G.setEntry d c v lba = d lba :=
  setIn_of_ne (fun f hf => h f (List.mem_range.1 hf)) v d

end FatState

variable {G : FatState}

@[simp] theorem fatNextCluster_disk (m : FatMem Disk) (c : ℕ) :
    fatNextCluster Disk.dev G m c = (G.next m.dev c, m) := by
  unfold fatNextCluster FatState.next
  split_ifs <;> rfl

theorem setCopies_disk (c : ℕ) (copies : List ℕ) (v : ℕ) (m : FatMem Disk) :
    setCopies Disk.dev G c copies v m = (true, { m with dev := G.setIn c copies v m.dev }) := by
  induction copies generalizing v m with
  | nil => rfl
  | cons f copies ih =>
      rw [setCopies]
      simp only [readSector_disk, writeSector_disk]
      rw [ih]
      rfl

@[simp] theorem fatSetCluster_disk (m : FatMem Disk) (c v : ℕ) :
    fatSetCluster Disk.dev G m c v = (true, { m with dev := G.setEntry m.dev c v }) :=
  setCopies_disk c _ v m

/-! ### Allocation -/

namespace FatState

variable (G) in
/-- The disk after the sectors of a cluster are cleared. -/
def clear (d : Disk) (c : ℕ) : Disk := fun lba => if lba ∈ G.clusterLbas c then zeroSector else d lba

variable (G) in
/-- The disk after a cluster is allocated. -/
def claim (d : Disk) (c : ℕ) : Disk := G.clear (G.setEntry d c G.eoc) c

variable (G) in
/-- The first cluster from `c` on with an entry of `0`. -/
def freeFrom (d : Disk) (c : ℕ) : Option ℕ :=
  (List.range' c (G.lastCluster + 1 - c)).find? fun x => G.entryAt d x == 0

variable (G) in
/-- The first free cluster. -/
def firstFree (d : Disk) : Option ℕ := G.freeFrom d 2

theorem freeFrom_eq_some {d : Disk} {c x : ℕ} (h : G.freeFrom d c = some x) :
    c ≤ x ∧ x ≤ G.lastCluster ∧ G.entryAt d x = 0 := by
  have hmem := List.mem_range'_1.1 (List.mem_of_find?_eq_some h)
  have hzero := List.find?_some h
  exact ⟨hmem.1, by omega, beq_iff_eq.1 hzero⟩

theorem freeFrom_eq_none {d : Disk} {c : ℕ} :
    G.freeFrom d c = none ↔ ∀ x, c ≤ x → x ≤ G.lastCluster → G.entryAt d x ≠ 0 := by
  rw [freeFrom, List.find?_eq_none]
  constructor
  · intro h x hc hx hzero
    exact h x (List.mem_range'_1.2 (by omega)) (beq_iff_eq.2 hzero)
  · intro h x hx hzero
    have := List.mem_range'_1.1 hx
    exact h x this.1 (by omega) (beq_iff_eq.1 hzero)

end FatState

theorem clearCluster_disk (m : FatMem Disk) (c : ℕ) :
    clearCluster Disk.dev G m c = { m with dev := G.clear m.dev c } := by
  have hfold : ∀ (lbas : List ℕ) (m : FatMem Disk),
      lbas.foldl (fun m lba => (m.writeSector Disk.dev lba zeroSector).2) m =
        { m with dev := fun lba => if lba ∈ lbas then zeroSector else m.dev lba } := by
    intro lbas
    induction lbas with
    | nil => intro m; simp
    | cons a lbas ih =>
        intro m
        rw [List.foldl_cons, ih]
        congr 1
        funext lba
        simp only [writeSector_disk, List.mem_cons, Function.update_apply]
        split_ifs with h₁ h₂ h₃ <;> first | rfl | (exfalso; tauto)
  exact hfold _ m

/-- What the search of `fat_alloc_cluster` comes to. -/
def allocated (G : FatState) (m : FatMem Disk) : Option ℕ → ℕ × FatMem Disk
  | none => (0, m)
  | some c => (c, { m with dev := G.claim m.dev c })

theorem allocFrom_disk (hlast : G.lastCluster + 1 < 2 ^ 32) (fuel c : ℕ) (m : FatMem Disk) :
    (∀ r, allocFrom Disk.dev G fuel c m = some r → r = allocated G m (G.freeFrom m.dev c)) ∧
      (G.lastCluster + 2 ≤ c + fuel → 0 < fuel → ∃ r, allocFrom Disk.dev G fuel c m = some r) := by
  induction fuel generalizing c with
  | zero => exact ⟨fun r h => (by cases h), fun _ h => absurd h (Nat.lt_irrefl 0)⟩
  | succ fuel ih =>
      rw [allocFrom]
      by_cases hc : G.lastCluster < c
      · have hnone : G.freeFrom m.dev c = none :=
          FatState.freeFrom_eq_none.2 fun x h₁ h₂ => absurd h₁ (by omega)
        rw [if_pos hc, hnone]
        exact ⟨fun r h => (Option.some.inj h).symm, fun _ _ => ⟨_, rfl⟩⟩
      · have hrange : G.lastCluster + 1 - c = G.lastCluster + 1 - (c + 1) + 1 := by omega
        rw [if_neg hc, FatState.freeFrom, hrange, List.range'_succ, List.find?_cons]
        simp only [readSector_disk, fatSetCluster_disk, clearCluster_disk]
        by_cases hzero : G.entryAt m.dev c = 0
        · rw [if_pos (show G.entry (m.dev (G.entryLba c)) (G.entryByte c % 512) = 0 from hzero),
            beq_iff_eq.2 hzero]
          exact ⟨fun r h => (Option.some.inj h).symm, fun _ _ => ⟨_, rfl⟩⟩
        · rw [if_neg (show ¬G.entry (m.dev (G.entryLba c)) (G.entryByte c % 512) = 0 from hzero),
            beq_eq_false_iff_ne.2 hzero, u32_of_lt (show c + 1 < 2 ^ 32 by omega)]
          obtain ⟨hsome, hfuel⟩ := ih (c + 1)
          refine ⟨hsome, fun hle _ => hfuel (by omega) (by omega)⟩

/-- **`fat_alloc_cluster`** takes the first free cluster, if it returns. -/
theorem fatAllocCluster_some (hlast : G.lastCluster + 1 < 2 ^ 32) {fuel : ℕ} {m : FatMem Disk}
    {r : ℕ × FatMem Disk} (h : fatAllocCluster Disk.dev G fuel m = some r) :
    r = allocated G m (G.firstFree m.dev) :=
  (allocFrom_disk hlast fuel 2 m).1 r h

theorem fatAllocCluster_returns (hlast : G.lastCluster + 1 < 2 ^ 32) {fuel : ℕ}
    (hfuel : G.lastCluster < fuel) (m : FatMem Disk) :
    fatAllocCluster Disk.dev G fuel m = some (allocated G m (G.firstFree m.dev)) := by
  obtain ⟨r, hr⟩ := (allocFrom_disk hlast fuel 2 m).2 (by omega) (by omega)
  rw [fatAllocCluster, hr, ← fatAllocCluster_some hlast hr]

theorem writeClusters_done {σ : Type} {dev : BlkDev σ} {buf : ℕ → UInt8} {size : ℕ} (fuel n c off done : ℕ)
    (m : FatMem σ) (h : size ≤ done) : writeClusters dev G fuel buf size n c off done m = some (true, done, m) := by
  cases n with
  | zero => rfl
  | succ n => rw [writeClusters, if_pos (Or.inl h)]

/-- Following no link is to stay. -/
theorem fatSkip_eq {σ : Type} (dev : BlkDev σ) (G : FatState) (fuel : ℕ) (alloc : Bool) (skip c : ℕ)
    (m : FatMem σ) : fatSkip dev G fuel alloc skip c m = fatWalkChain dev G fuel alloc skip c m := by
  unfold fatSkip
  split_ifs with h
  · rfl
  · rw [not_not.1 h]
    rfl

/-! ### Freeing a chain -/

variable (G) in
/-- The disk after `fat_free_chain`. -/
def FatState.freeChain : ℕ → ℕ → Disk → Option Disk
  | 0, _, _ => none
  | fuel + 1, c, d =>
      if 2 ≤ c ∧ c ≤ G.lastCluster then
        if G.next d c = 0 then some (G.setEntry d c 0)
        else freeChain fuel (G.next d c) (G.setEntry d c 0)
      else some d

theorem fatFreeChain_disk (fuel c : ℕ) (m : FatMem Disk) :
    fatFreeChain Disk.dev G fuel c m =
      (G.freeChain fuel c m.dev).map fun d => { m with dev := d } := by
  induction fuel generalizing c m with
  | zero => rfl
  | succ fuel ih =>
      rw [fatFreeChain, FatState.freeChain]
      simp only [fatNextCluster_disk, fatSetCluster_disk]
      split_ifs
      · rfl
      · exact ih _ _
      · rfl

end LighthOS
