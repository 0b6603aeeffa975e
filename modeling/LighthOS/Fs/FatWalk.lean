/-
# The walk through a directory, on a device without errors

On a device on which every access succeeds, `dir_walk` is a loop over a list: the slots of
the directory, sector by sector and cluster by cluster (`FatState.dirSlots`), of which
those with an 8.3 name reach the callback, each with the long name collected before it
(`entriesOf`, `dirWalk_entries`).  No callback of the driver stores anything before it
ends the walk, so that the list is that of the disk before the call.

What the callbacks look for are then searches in the list of the live entries, those
before the end mark that are not deleted (`FatState.live`): `fat_finddir` takes the first
one that is no volume label and has the name, as 8.3 name or as long name
(`fatFinddir_eq`); `fat_flush_dirent` and `fat_unlink` take the first one with the 8.3
name (`fatFlushDirent_eq`, `fatUnlink_eq`).
-/

import LighthOS.Fs.FatTable

namespace LighthOS

/-! ### Slots and entries -/

/-- A slot of a directory, with its bytes. -/
structure Slot where
  lba : ℕ
  off : ℕ
  raw : Dirent

/-- A slot with an 8.3 name, and the accumulator of long names when the walk comes to it. -/
structure Entry extends Slot where
  lfn : Lfn

/-- The slots of a sector. -/
def sectorSlots (d : Disk) (lba : ℕ) : List Slot :=
  ((List.range 16).map (32 * ·)).map fun off => ⟨lba, off, (d lba).slot off⟩

/-- The entries before the end mark that are not deleted. -/
def liveOf (l : List Entry) : List Entry := (l.takeWhile (!·.raw.isEnd)).filter (!·.raw.isDeleted)

/-- The slots that reach the callback. -/
def entriesOf : List Slot → Lfn → List Entry
  | [], _ => []
  | s :: slots, l =>
      if s.raw.isLong then entriesOf slots (l.collect s.raw) else ⟨s, l⟩ :: entriesOf slots l.reset

namespace FatState

variable (G : FatState)

/-- The clusters of a chain, for at most `n` rounds. -/
def clustersFrom (d : Disk) : ℕ → ℕ → List ℕ
  | 0, _ => []
  | n + 1, c => if 2 ≤ c ∧ c ≤ G.lastCluster then c :: clustersFrom d n (G.next d c) else []

/-- The sectors of a directory. -/
def dirLbas (d : Disk) (dir : ℕ) : List ℕ :=
  if isRootDir G dir then (List.range G.rootDirSectors).map fun i => u32 (G.rootDirLba + i)
  else (G.clustersFrom d (u32 (G.totalClusters + 2)) dir).flatMap G.clusterLbas

/-- The slots of a directory. -/
def dirSlots (d : Disk) (dir : ℕ) : List Slot := (G.dirLbas d dir).flatMap (sectorSlots d)

/-- The entries of a directory that a walk comes to. -/
def entries (m : FatMem Disk) (dir : ℕ) : List Entry :=
  entriesOf (G.dirSlots m.dev dir) m.lfn.reset

/-- The live entries of a directory. -/
def live (m : FatMem Disk) (dir : ℕ) : List Entry := liveOf (G.entries m dir)

/-- The entry that `fat_lookup_in` finds. -/
def lookup (m : FatMem Disk) (dir : ℕ) (name : Bytes) : Option Entry :=
  (G.live m dir).find? fun e => !e.raw.isVolumeId && lookupMatch name e.raw e.lfn

/-- The entry that `cb_flush` and `cb_unlink` find: the first one with the 8.3 name. -/
def keyed (m : FatMem Disk) (dir : ℕ) (name : Bytes) : Option Entry :=
  (G.live m dir).find? fun e => e.raw.name == fatNameFromDot name

/-- The slot that `cb_find_free_slot` takes. -/
def freeSlot (m : FatMem Disk) (dir : ℕ) : Option Entry :=
  (G.entries m dir).find? fun e => e.raw.isEnd || e.raw.isDeleted

end FatState

/-- The disk after a store to a slot. -/
def Disk.setSlot (d : Disk) (s : Slot) (e : Dirent) : Disk :=
  Function.update d s.lba ((d s.lba).put s.off 32 e)

theorem slot_of_mem_dirSlots {G : FatState} {d : Disk} {dir : ℕ} {s : Slot}
    (h : s ∈ G.dirSlots d dir) : s.raw = (d s.lba).slot s.off := by
  obtain ⟨lba, -, h⟩ := List.mem_flatMap.1 h
  obtain ⟨off, -, rfl⟩ := List.mem_map.1 h
  rfl

theorem toSlot_mem_of_entriesOf {slots : List Slot} {l : Lfn} {e : Entry}
    (h : e ∈ entriesOf slots l) : e.toSlot ∈ slots := by
  induction slots generalizing l with
  | nil => simp [entriesOf] at h
  | cons s slots ih =>
      rw [entriesOf] at h
      split_ifs at h
      · exact List.mem_cons_of_mem s (ih h)
      · rcases List.mem_cons.1 h with rfl | h
        · exact List.mem_cons_self
        · exact List.mem_cons_of_mem s (ih h)

/-- The entries of a directory, without the long names. -/
theorem FatState.map_toSlot_entriesOf (slots : List Slot) (l : Lfn) :
    (entriesOf slots l).map (·.toSlot) = slots.filter (!·.raw.isLong) := by
  induction slots generalizing l with
  | nil => rfl
  | cons s slots ih =>
      rw [entriesOf]
      cases hlong : s.raw.isLong with
      | true => simp [hlong, ih]
      | false => simp [hlong, ih]

/-- What reaches the callback is no slot of a long name. -/
theorem not_long_of_mem_entriesOf {slots : List Slot} {l : Lfn} {e : Entry} (h : e ∈ entriesOf slots l) :
    e.raw.isLong = false := by
  have hslot : e.toSlot ∈ slots.filter (!·.raw.isLong) := by
    rw [← FatState.map_toSlot_entriesOf _ l]
    exact List.mem_map_of_mem h
  simpa using (List.mem_filter.1 hslot).2

theorem FatState.raw_of_mem_entries {G : FatState} {m : FatMem Disk} {dir : ℕ} {e : Entry}
    (h : e ∈ G.entries m dir) : e.raw = (m.dev e.lba).slot e.off :=
  slot_of_mem_dirSlots (toSlot_mem_of_entriesOf h)

theorem FatState.raw_of_mem_live {G : FatState} {m : FatMem Disk} {dir : ℕ} {e : Entry}
    (h : e ∈ G.live m dir) : e.raw = (m.dev e.lba).slot e.off :=
  FatState.raw_of_mem_entries ((List.takeWhile_sublist _).subset (List.mem_of_mem_filter h))

theorem FatState.off_mod_of_mem_live {G : FatState} {m : FatMem Disk} {dir : ℕ} {e : Entry}
    (h : e ∈ G.live m dir) : e.off % 32 = 0 := by
  have hmem := toSlot_mem_of_entriesOf ((List.takeWhile_sublist _).subset (List.mem_of_mem_filter h))
  obtain ⟨lba, -, hslot⟩ := List.mem_flatMap.1 hmem
  obtain ⟨off, hoff, heq⟩ := List.mem_map.1 hslot
  obtain ⟨j, -, rfl⟩ := List.mem_map.1 hoff
  rw [← heq]
  exact Nat.mul_mod_right 32 j

/-! ### The walk as a loop over the entries -/

section Walk

variable {α : Type} {G : FatState}

/-- A callback that stores nothing before it ends the walk. -/
def Quiet (fn : DirWalkFn Disk α) : Prop :=
  ∀ ⦃e lba off a m a' m'⦄, fn e lba off a m = some (0, a', m') → m' = m

/-- The round of the walk for a slot. -/
def slotBody (fn : DirWalkFn Disk α) (s : Slot) : ℤ × α × FatMem Disk →
    Option (Bool × ℤ × α × FatMem Disk) :=
  fun (_, a, m) =>
    if s.raw.isLong then some (true, 0, a, { m with lfn := m.lfn.collect s.raw })
    else (fn s.raw s.lba s.off a m).map fun (rc, a, m) =>
      (rc == 0, rc, a, { m with lfn := m.lfn.reset })

/-- The round of the walk for an entry. -/
def entryBody (fn : DirWalkFn Disk α) (e : Entry) : ℤ × α × Disk → Option (Bool × ℤ × α × Disk) :=
  fun (_, a, d) => (fn e.raw e.lba e.off a ⟨d, e.lfn⟩).map fun (rc, a, m) => (rc == 0, rc, a, m.dev)

/-- Between the rounds of a walk that goes on, the result is `0` and the disk is as before. -/
def Going (d : Disk) (s : ℤ × α × FatMem Disk) : Prop := s.1 = 0 ∧ s.2.2.dev = d

variable {fn : DirWalkFn Disk α} {d : Disk}

theorem Going.slotBody (hfn : Quiet fn) {s : Slot} {r r' : ℤ × α × FatMem Disk} (h : Going d r)
    (hr : slotBody fn s r = some (true, r')) : Going d r' := by
  obtain ⟨rc, a, m⟩ := r
  obtain ⟨-, hd⟩ := h
  unfold LighthOS.slotBody at hr
  split_ifs at hr with hlong
  · cases hr
    exact ⟨rfl, hd⟩
  · obtain ⟨⟨rc', a', m'⟩, hf, heq⟩ := Option.map_eq_some_iff.1 hr
    simp only [Prod.mk.injEq, beq_iff_eq] at heq
    obtain ⟨rfl, rfl⟩ := heq
    rw [hfn hf]
    exact ⟨rfl, hd⟩

theorem Going.run (hfn : Quiet fn) {slots : List Slot} {r r' : ℤ × α × FatMem Disk} (h : Going d r)
    (hr : Loop.run (LighthOS.slotBody fn) slots r = some (true, r')) : Going d r' :=
  Loop.run_going (I := Going d) (fun _ _ _ _ hI hs => hI.slotBody hfn hs) h hr

theorem walkSector_eq {lba : ℕ} {r : ℤ × α × FatMem Disk} (h : Going d r) :
    walkSector Disk.dev fn lba r = Loop.run (slotBody fn) (sectorSlots d lba) r := by
  obtain ⟨rc, a, m⟩ := r
  obtain ⟨rfl, rfl⟩ := h
  rw [sectorSlots, ← Loop.run_map]
  rfl

section

variable (hfn : Quiet fn)
include hfn

theorem walkSectors_eq {lbas : List ℕ} {r : ℤ × α × FatMem Disk} (h : Going d r) :
    Loop.run (walkSector Disk.dev fn) lbas r =
      Loop.run (slotBody fn) (lbas.flatMap (sectorSlots d)) r := by
  rw [Loop.run_flatMap]
  exact Loop.run_congr (I := Going d)
    (fun lba _ r hr => ⟨walkSector_eq hr, fun r' h' => hr.run hfn h'⟩) h

theorem walkClusters_eq (n c : ℕ) {r : ℤ × α × FatMem Disk} (h : Going d r) :
    walkClusters Disk.dev G fn n c r = Loop.run (slotBody fn)
      (((G.clustersFrom d n c).flatMap G.clusterLbas).flatMap (sectorSlots d)) r := by
  induction n generalizing c r with
  | zero => rfl
  | succ n ih =>
      rw [walkClusters, FatState.clustersFrom]
      split_ifs with hc
      · rw [List.flatMap_cons, List.flatMap_append, Loop.run_append, walkSectors_eq hfn h]
        rcases hrun : Loop.run (slotBody fn) ((G.clusterLbas c).flatMap (sectorSlots d)) r with
          _ | ⟨_ | _, rc, a, m⟩
        · rfl
        · rfl
        · have hgoing := h.run hfn hrun
          simp only [Option.bind_eq_bind, Option.bind_some, if_true, fatNextCluster_disk]
          rw [ih _ hgoing, hgoing.2]
      · rfl

theorem run_entries (slots : List Slot) (a : α) (l : Lfn) :
    (Loop.run (slotBody fn) slots (0, a, ⟨d, l⟩)).map (fun r => (r.1, r.2.1, r.2.2.1, r.2.2.2.dev)) =
      Loop.run (entryBody fn) (entriesOf slots l) (0, a, d) := by
  induction slots generalizing a l with
  | nil => rfl
  | cons s slots ih =>
      rw [Loop.run, entriesOf]
      cases hlong : s.raw.isLong with
      | true =>
          simp only [slotBody, hlong, if_true]
          exact ih a (l.collect s.raw)
      | false =>
          simp only [slotBody, hlong, Bool.false_eq_true, if_false]
          rw [Loop.run, entryBody]
          rcases hf : fn s.raw s.lba s.off a ⟨d, l⟩ with _ | ⟨rc, a', m'⟩
          · rfl
          · simp only [Option.map_some]
            by_cases hrc : rc = 0
            · subst hrc
              rw [hfn hf]
              exact ih a' l.reset
            · simp only [beq_eq_false_iff_ne.2 hrc, Option.map_some]

/-- **The walk is a loop over the slots** of the directory. -/
theorem dirWalk_slots (dir : ℕ) (a : α) (m : FatMem Disk) : dirWalk Disk.dev G fn dir a m =
    (Loop.run (slotBody fn) (G.dirSlots m.dev dir) (0, a, ⟨m.dev, m.lfn.reset⟩)).map Prod.snd := by
  have hgoing : Going m.dev ((0, a, { m with lfn := m.lfn.reset }) : ℤ × α × FatMem Disk) := ⟨rfl, rfl⟩
  unfold dirWalk FatState.dirSlots FatState.dirLbas
  split_ifs
  · exact congrArg (Option.map Prod.snd) (walkSectors_eq hfn hgoing)
  · exact congrArg (Option.map Prod.snd) (walkClusters_eq hfn _ _ hgoing)

/-- **The walk is a loop over the entries** of the directory. -/
theorem dirWalk_entries (dir : ℕ) (a : α) (m : FatMem Disk) :
    (dirWalk Disk.dev G fn dir a m).map (fun r => (r.1, r.2.1, r.2.2.dev)) =
      (Loop.run (entryBody fn) (G.entries m dir) (0, a, m.dev)).map Prod.snd := by
  rw [dirWalk_slots hfn, FatState.entries, ← run_entries hfn, Option.map_map, Option.map_map]
  rfl

/-- A walk with a callback that returns, returns. -/
theorem dirWalk_isSome (hsome : ∀ e lba off a m, (fn e lba off a m).isSome) (dir : ℕ)
    (a : α) (m : FatMem Disk) : (dirWalk Disk.dev G fn dir a m).isSome := by
  have hwalk := congrArg Option.isSome (dirWalk_entries (G := G) hfn dir a m)
  rw [Option.isSome_map, Option.isSome_map] at hwalk
  rw [hwalk]
  exact Loop.run_isSome (fun e _ s => by rw [entryBody, Option.isSome_map]; exact hsome _ _ _ _ _) _

/-- **A callback that looks for an entry** and stops there. -/
theorem dirWalk_find {p : Entry → Bool} {dir : ℕ} {a : α} {m : FatMem Disk} (hgo : ∀ e : Entry, p e = false →
      fn e.raw e.lba e.off a ⟨m.dev, e.lfn⟩ = some (0, a, ⟨m.dev, e.lfn⟩))
    (hstop : ∀ e : Entry, p e = true → ∀ r ∈ fn e.raw e.lba e.off a ⟨m.dev, e.lfn⟩, r.1 ≠ 0) :
    (dirWalk Disk.dev G fn dir a m).map (fun r => (r.2.1, r.2.2.dev)) =
      ((G.entries m dir).find? p).elim (some (a, m.dev)) fun e =>
        (fn e.raw e.lba e.off a ⟨m.dev, e.lfn⟩).map fun r => (r.2.1, r.2.2.dev) := by
  have hwalk := congrArg (Option.map Prod.snd) (dirWalk_entries (G := G) hfn dir a m)
  rw [Option.map_map] at hwalk
  have hrun : Loop.run (entryBody fn) (G.entries m dir) (0, a, m.dev) =
      ((G.entries m dir).find? p).elim (some (true, 0, a, m.dev)) fun e =>
        entryBody fn e (0, a, m.dev) := by
    refine Loop.run_find (fun e _ hp => ?_) fun e _ hp r hr => ?_
    · rw [entryBody, hgo e hp]
      rfl
    · obtain ⟨r', hr', heq⟩ := Option.map_eq_some_iff.1 hr
      exact hstop e hp r' hr' (beq_iff_eq.1 (congrArg Prod.fst heq))
  refine hwalk.trans ?_
  rw [hrun]
  cases (G.entries m dir).find? p with
  | none => rfl
  | some e =>
      simp only [entryBody, Option.elim_some, Option.map_map]
      rfl

end

/-! ### Searches for live entries -/

/-- Looking for an entry behind which nothing is looked at is looking among the live
entries. -/
theorem find?_liveOf (q : Entry → Bool) (l : List Entry) :
    (liveOf l).find? q = (l.find? fun e => e.raw.isEnd || (!e.raw.isDeleted && q e)).filter
      (!·.raw.isEnd) := by
  induction l with
  | nil => rfl
  | cons e l ih =>
      unfold liveOf at ih ⊢
      rw [List.takeWhile_cons, List.find?_cons]
      cases hend : e.raw.isEnd with
      | true => simp [hend, Option.filter]
      | false =>
          cases hdel : e.raw.isDeleted with
          | true => simp [hdel, ih]
          | false =>
              cases hq : q e with
              | true => simp [hdel, hq, hend, Option.filter]
              | false => simp [hdel, hq, ih]

/-- The common form of `cb_lookup`, `cb_flush` and `cb_unlink`: the walk ends at the end
mark, and `act` is done for the first live entry with `q`. -/
def searchFn (q : Dirent → Lfn → Bool) (act : DirWalkFn Disk α) : DirWalkFn Disk α :=
  fun e lba off a m =>
    if e.isEnd then some (-1, a, m)
    else if e.isDeleted then some (0, a, m)
    else if q e m.lfn then act e lba off a m
    else some (0, a, m)

/-- **The search for a live entry.** -/
theorem dirWalk_search {q : Dirent → Lfn → Bool} {f : DirWalkFn Disk α}
    (hact : ∀ e lba off a m, ∀ r ∈ f e lba off a m, r.1 ≠ 0) (dir : ℕ) (a : α) (m : FatMem Disk) :
    (dirWalk Disk.dev G (searchFn q f) dir a m).map (fun r => (r.2.1, r.2.2.dev)) =
      ((G.live m dir).find? fun e => q e.raw e.lfn).elim (some (a, m.dev)) fun e =>
        (f e.raw e.lba e.off a ⟨m.dev, e.lfn⟩).map fun r => (r.2.1, r.2.2.dev) := by
  have hquiet : Quiet (searchFn q f) := by
    intro e lba off a m a' m' h
    unfold searchFn at h
    split_ifs at h
    · cases h
    · cases h
      rfl
    · exact absurd rfl (hact e lba off a m _ h)
    · cases h
      rfl
  rw [dirWalk_find hquiet (p := fun e => e.raw.isEnd || (!e.raw.isDeleted && q e.raw e.lfn)),
    FatState.live, find?_liveOf]
  · cases hfind : (G.entries m dir).find? fun e =>
        e.raw.isEnd || (!e.raw.isDeleted && q e.raw e.lfn) with
    | none => rfl
    | some e =>
        have hp := List.find?_some hfind
        cases hend : e.raw.isEnd with
        | true => simp [searchFn, hend, Option.filter]
        | false =>
            rw [hend, Bool.false_or, Bool.and_eq_true, Bool.not_eq_true'] at hp
            simp [searchFn, hend, hp.1, hp.2, Option.filter]
  · intro e hp
    simp only [Bool.or_eq_false_iff, Bool.and_eq_false_iff, Bool.not_eq_false'] at hp
    obtain ⟨hend, hdel | hq⟩ := hp
    · simp [searchFn, hend, hdel]
    · simp [searchFn, hend, hq]
  · intro e hp r hr
    cases hend : e.raw.isEnd with
    | true =>
        simp only [searchFn, hend, if_true, Option.mem_def, Option.some.injEq] at hr
        rw [← hr]
        exact neg_ne_zero.2 one_ne_zero
    | false =>
        simp only [hend, Bool.false_or, Bool.and_eq_true, Bool.not_eq_true'] at hp
        simp only [searchFn, hend, hp.1, hp.2, Bool.false_eq_true, if_false, if_true] at hr
        exact hact _ _ _ _ _ r hr

end Walk

/-! ### The operations -/

variable {G : FatState}

theorem updateSlot_disk (lba off : ℕ) (f : Dirent → Dirent) (m : FatMem Disk) :
    updateSlot Disk.dev lba off f m = (1, true, ⟨Function.update m.dev lba
      ((m.dev lba).put off 32 (f ((m.dev lba).slot off))), m.lfn⟩) := rfl

theorem cbLookup_eq (name : Bytes) : (cbLookup name : DirWalkFn Disk (Option Dirent)) =
    searchFn (fun e l => !e.isVolumeId && lookupMatch name e l) (fun e _ _ _ m => some (1, some e, m)) := by
  funext e lba off a m
  unfold cbLookup searchFn
  cases hvol : e.isVolumeId <;> simp [hvol]

theorem cbFlush_eq (name : Bytes) (size first : ℕ) : cbFlush Disk.dev name size first =
    searchFn (fun e _ => e.name == fatNameFromDot name)
      (fun _ lba off _ m => some (updateSlot Disk.dev lba off (·.patch size first) m)) := by
  funext e lba off a m
  unfold cbFlush searchFn
  simp only [ne_eq, ite_not, beq_iff_eq]

theorem cbUnlink_eq (fuel : ℕ) (name : Bytes) : cbUnlink Disk.dev G fuel name =
    searchFn (fun e _ => e.name == fatNameFromDot name) (fun e lba off _ m =>
      (if 2 ≤ e.firstCluster then fatFreeChain Disk.dev G fuel e.firstCluster m else some m).map
        (updateSlot Disk.dev lba off (Function.update · 0 0xE5))) := by
  funext e lba off a m
  unfold cbUnlink searchFn
  simp only [ne_eq, ite_not, beq_iff_eq, Option.bind_eq_bind, Option.map_eq_bind]
  split_ifs <;> rfl

/-- **`fat_lookup_in`** finds the first live entry that is no volume label and has the
name, as 8.3 name or as long name. -/
theorem fatLookupIn_eq (dir : ℕ) (name : Bytes) (m : FatMem Disk) :
    ∃ l, fatLookupIn Disk.dev G dir name m =
      some ((G.lookup m dir name).map fun e => e.raw, ⟨m.dev, l⟩) := by
  have h := dirWalk_search (G := G) (q := fun e l => !e.isVolumeId && lookupMatch name e l)
    (f := fun e _ _ _ m => some (1, some e, m)) (by simp) dir none m
  rw [← cbLookup_eq] at h
  have hfound : (dirWalk Disk.dev G (cbLookup name) dir none m).map (fun r => (r.2.1, r.2.2.dev)) =
      some ((G.lookup m dir name).map fun e => e.raw, m.dev) := by
    rw [h, FatState.lookup]
    cases (G.live m dir).find? fun e => !e.raw.isVolumeId && lookupMatch name e.raw e.lfn <;> rfl
  obtain ⟨⟨rc, e, m'⟩, hwalk, heq⟩ := Option.map_eq_some_iff.1 hfound
  obtain ⟨rfl, hd⟩ := Prod.mk.inj heq
  exact ⟨m'.lfn, by rw [fatLookupIn, hwalk, ← hd]; rfl⟩

/-- **`fat_finddir`** makes a node for the entry that is found, where there is memory for it. -/
theorem fatFinddir_eq (room : Option Bool) (dir : ℕ) (name : Bytes) (m : FatMem Disk) :
    ∃ l, fatFinddir Disk.dev G room dir name m =
      some ((G.lookup m dir name).bind fun e => room.map fun ctx => nodeOf ctx dir name e.raw, ⟨m.dev, l⟩) := by
  obtain ⟨l, h⟩ := fatLookupIn_eq (G := G) dir name m
  exact ⟨l, by rw [fatFinddir, h]; simp only [Option.map_some, Option.bind_map]; rfl⟩

/-- **`fat_flush_dirent`** patches the first live entry with the 8.3 name. -/
theorem fatFlushDirent_eq (dir : ℕ) (name : Bytes) (size first : ℕ) (m : FatMem Disk) :
    ∃ l, fatFlushDirent Disk.dev G dir name size first m =
      some ⟨(G.keyed m dir name).elim m.dev fun e =>
        m.dev.setSlot e.toSlot (e.raw.patch size first), l⟩ := by
  have h := dirWalk_search (G := G) (q := fun e _ => e.name == fatNameFromDot name)
    (f := fun _ lba off _ m => some (updateSlot Disk.dev lba off (·.patch size first) m))
    (by simp [updateSlot_disk]) dir false m
  rw [← cbFlush_eq] at h
  have hdev : (dirWalk Disk.dev G (cbFlush Disk.dev name size first) dir false m).map
      (fun r => r.2.2.dev) = some ((G.keyed m dir name).elim m.dev fun e =>
        m.dev.setSlot e.toSlot (e.raw.patch size first)) := by
    have h' := congrArg (Option.map Prod.snd) h
    rw [Option.map_map] at h'
    refine h'.trans ?_
    rw [FatState.keyed]
    cases hfind : (G.live m dir).find? fun e => e.raw.name == fatNameFromDot name with
    | none => rfl
    | some e =>
        have hraw := FatState.raw_of_mem_live (List.mem_of_find?_eq_some hfind)
        simp only [Option.elim_some, updateSlot_disk, Option.map_some, ← hraw]
        rfl
  obtain ⟨r, hwalk, hr⟩ := Option.map_eq_some_iff.1 hdev
  exact ⟨r.2.2.lfn, by rw [fatFlushDirent, hwalk, ← hr]; rfl⟩

/-- **`fat_unlink`** frees the chain of the first live entry with the 8.3 name, and marks
its slot as deleted. -/
theorem fatUnlink_eq (fuel dir : ℕ) (name : Bytes) (m : FatMem Disk) :
    (fatUnlink Disk.dev G fuel dir name m).map (fun r => (r.1, r.2.dev)) =
      (G.keyed m dir name).elim (some (-1, m.dev)) fun e =>
        (if 2 ≤ e.raw.firstCluster then G.freeChain fuel e.raw.firstCluster m.dev
          else some m.dev).map fun d =>
            (0, d.setSlot e.toSlot (Function.update ((d e.lba).slot e.off) 0 0xE5)) := by
  have h := dirWalk_search (G := G) (q := fun e _ => e.name == fatNameFromDot name)
    (f := fun e lba off _ m =>
      (if 2 ≤ e.firstCluster then fatFreeChain Disk.dev G fuel e.firstCluster m else some m).map
        (updateSlot Disk.dev lba off (Function.update · 0 0xE5)))
    (fun e lba off a m r hr => by
      obtain ⟨m', -, rfl⟩ := Option.map_eq_some_iff.1 hr
      simp [updateSlot_disk]) dir false m
  rw [← cbUnlink_eq] at h
  have hmap : (fatUnlink Disk.dev G fuel dir name m).map (fun r => (r.1, r.2.dev)) =
      ((dirWalk Disk.dev G (cbUnlink Disk.dev G fuel name) dir false m).map
        (fun r => (r.2.1, r.2.2.dev))).map fun r => ((if r.1 then 0 else -1 : ℤ), r.2) := by
    rw [fatUnlink, Option.map_map, Option.map_map]
    rfl
  rw [hmap, h, FatState.keyed]
  cases hfind : (G.live m dir).find? fun e => e.raw.name == fatNameFromDot name with
  | none => rfl
  | some e =>
      simp only [Option.elim_some, fatFreeChain_disk]
      split_ifs <;> simp only [Option.map_map, Option.map_some] <;> rfl

/-- **The search for a slot** of `fat_create` stores the entry in the first free slot. -/
theorem findFreeSlot_eq (ent : Dirent) (dir : ℕ) (m : FatMem Disk) :
    (dirWalk Disk.dev G (cbFindFreeSlot Disk.dev ent) dir false m).map
        (fun r => (r.2.1, r.2.2.dev)) =
      some ((G.freeSlot m dir).elim (false, m.dev) fun e => (true, m.dev.setSlot e.toSlot ent)) := by
  rw [dirWalk_find (p := fun e => e.raw.isEnd || e.raw.isDeleted), FatState.freeSlot]
  · cases hfind : (G.entries m dir).find? fun e => e.raw.isEnd || e.raw.isDeleted with
    | none => rfl
    | some e =>
        have hp := List.find?_some hfind
        simp only [Option.elim_some, cbFindFreeSlot, hp, if_true, updateSlot_disk, Option.map_some]
        rfl
  · intro e lba off a m a' m' h
    unfold cbFindFreeSlot at h
    split_ifs at h
    · simp [updateSlot_disk] at h
    · cases h
      rfl
  · intro e hp
    simp only [cbFindFreeSlot, hp, Bool.false_eq_true, if_false]
  · intro e hp r hr
    simp only [cbFindFreeSlot, hp, if_true, updateSlot_disk, Option.mem_def, Option.some.injEq] at hr
    rw [← hr]
    exact one_ne_zero

/-! ### The ways through `fat_create` -/

theorem lastOfChain_mem {fuel c x : ℕ} {m m' : FatMem Disk}
    (h : lastOfChain Disk.dev G fuel c m = some (x, m')) : m' = m := by
  induction fuel generalizing c with
  | zero => cases h
  | succ fuel ih =>
      rw [lastOfChain] at h
      simp only [fatNextCluster_disk] at h
      split_ifs at h
      · cases h
        rfl
      · exact ih h

section Create

variable {p fuel : ℕ} {m m' : FatMem Disk} {ent : Dirent} {r : ℤ} {name : Bytes} {type : VfsType}

/-- How the second half of `fat_create` ends: the entry is in the first free slot; or the directory is full,
and cannot grow or has a new cluster behind its last one, with the entry in it. -/
inductive AddWay (G : FatState) (fuel p : ℕ) (ent : Dirent) (m : FatMem Disk) : ℤ → Disk → Prop
  | slot {x : Entry} (hfree : G.freeSlot m p = some x) : AddWay G fuel p ent m 0 (m.dev.setSlot x.toSlot ent)
  | full (hfree : G.freeSlot m p = none) (hno : isRootDir G p = true ∨ G.firstFree m.dev = none) :
      AddWay G fuel p ent m (-1) m.dev
  | grown {m₁ : FatMem Disk} {last c : ℕ} (hfree : G.freeSlot m p = none) (hroot : isRootDir G p = false)
      (hdev : m₁.dev = m.dev) (hlast : lastOfChain Disk.dev G fuel p m₁ = some (last, m₁))
      (hc : G.firstFree m.dev = some c) :
      AddWay G fuel p ent m 0
        (Function.update (G.setEntry (G.claim m.dev c) last c) (G.fatClusterToLba c) (zeroSector.put 0 32 ent))

theorem addEntry_way (hlast : G.lastCluster + 1 < 2 ^ 32) (hf : addEntry Disk.dev G fuel p ent m = some (r, m')) :
    AddWay G fuel p ent m r m'.dev := by
  obtain ⟨⟨rc, written, m₁⟩, hwalk, hfound⟩ := Option.map_eq_some_iff.1 (findFreeSlot_eq (G := G) ent p m)
  unfold addEntry at hf
  rw [hwalk] at hf
  simp only [Option.bind_eq_bind, Option.bind_some] at hf
  cases hfree : G.freeSlot m p with
  | some x =>
      rw [hfree] at hfound
      obtain ⟨rfl, hd⟩ := Prod.mk.inj hfound
      rw [if_pos rfl] at hf
      obtain ⟨rfl, rfl⟩ := Prod.mk.inj (Option.some.inj hf)
      rw [hd]
      exact .slot hfree
  | none =>
      rw [hfree] at hfound
      obtain ⟨rfl, hd⟩ := Prod.mk.inj hfound
      simp only at hd
      rw [if_neg (by simp)] at hf
      by_cases hroot : isRootDir G p = true
      · rw [if_pos hroot] at hf
        obtain ⟨rfl, rfl⟩ := Prod.mk.inj (Option.some.inj hf)
        rw [hd]
        exact .full hfree (Or.inl hroot)
      rw [if_neg hroot] at hf
      obtain ⟨⟨last, m₂⟩, hchain, hrest⟩ := Option.bind_eq_some_iff.1 hf
      obtain ⟨⟨nc, m₃⟩, halloc, hstore⟩ := Option.bind_eq_some_iff.1 hrest
      obtain rfl := lastOfChain_mem hchain
      have hr := fatAllocCluster_some hlast halloc
      rw [hd] at hr
      cases hff : G.firstFree m.dev with
      | none =>
          rw [hff] at hr
          obtain ⟨rfl, rfl⟩ := Prod.mk.inj hr
          rw [if_pos rfl] at hstore
          obtain ⟨rfl, rfl⟩ := Prod.mk.inj (Option.some.inj hstore)
          rw [hd]
          exact .full hfree (Or.inr hff)
      | some c =>
          rw [hff] at hr
          obtain ⟨rfl, rfl⟩ := Prod.mk.inj hr
          obtain ⟨h₂, -, -⟩ := FatState.freeFrom_eq_some hff
          rw [if_neg (by omega)] at hstore
          obtain ⟨rfl, rfl⟩ := Prod.mk.inj (Option.some.inj hstore)
          simp only [fatSetCluster_disk, writeSector_disk, hd]
          exact .grown hfree (by simpa using hroot) hd hchain hff

/-- How `fat_create` goes: the name is in the directory; or an entry is added, for a directory after a
cluster for its entries has been prepared, unless there is none. -/
inductive CreateWay (G : FatState) (fuel p : ℕ) (name : Bytes) (m : FatMem Disk) : VfsType → ℤ → FatMem Disk → Prop
  | found {type : VfsType} {x : Entry} {l : Lfn} (h : G.lookup m p name = some x) :
      CreateWay G fuel p name m type (-1) ⟨m.dev, l⟩
  | file {r : ℤ} {m' : FatMem Disk} {l : Lfn} (h : G.lookup m p name = none)
      (hadd : addEntry Disk.dev G fuel p (newDirent (fatNameFromDot name) 0 0) ⟨m.dev, l⟩ = some (r, m')) :
      CreateWay G fuel p name m .file r m'
  | full {l : Lfn} (h : G.lookup m p name = none) (hfree : G.firstFree m.dev = none) :
      CreateWay G fuel p name m .dir (-1) ⟨m.dev, l⟩
  | dir {r : ℤ} {m' : FatMem Disk} {l : Lfn} {c : ℕ} (h : G.lookup m p name = none)
      (hfree : G.firstFree m.dev = some c)
      (hadd : addEntry Disk.dev G fuel p (newDirent (fatNameFromDot name) 0x10 c)
        ⟨Function.update (G.claim m.dev c) (G.fatClusterToLba c) (dotSector c p), l⟩ = some (r, m')) :
      CreateWay G fuel p name m .dir r m'

theorem fatCreate_way (hlast : G.lastCluster + 1 < 2 ^ 32)
    (hf : fatCreate Disk.dev G fuel p name type m = some (r, m')) : CreateWay G fuel p name m type r m' := by
  obtain ⟨l, hlookup⟩ := fatLookupIn_eq (G := G) p name m
  unfold fatCreate at hf
  rw [hlookup] at hf
  simp only [Option.bind_eq_bind, Option.bind_some, Option.isSome_map] at hf
  cases hex : G.lookup m p name with
  | some x =>
      rw [hex, if_pos Option.isSome_some] at hf
      obtain ⟨rfl, rfl⟩ := Prod.mk.inj (Option.some.inj hf)
      exact .found hex
  | none =>
      rw [hex, if_neg (by simp)] at hf
      cases type with
      | file => exact .file hex hf
      | dir =>
          obtain ⟨⟨c, m₁⟩, halloc, hrest⟩ := Option.bind_eq_some_iff.1 hf
          have hr := fatAllocCluster_some hlast halloc
          cases hff : G.firstFree m.dev with
          | none =>
              rw [hff] at hr
              obtain ⟨rfl, rfl⟩ := Prod.mk.inj hr
              rw [if_pos rfl] at hrest
              obtain ⟨rfl, rfl⟩ := Prod.mk.inj (Option.some.inj hrest)
              exact .full hex hff
          | some c' =>
              rw [hff] at hr
              obtain ⟨rfl, rfl⟩ := Prod.mk.inj hr
              obtain ⟨h₂, -, -⟩ := FatState.freeFrom_eq_some hff
              rw [if_neg (by omega)] at hrest
              simp only [writeSector_disk] at hrest
              exact .dir hex hff hrest

end Create

/-! ### Keys -/

/-- The 8.3 name only depends on the first twelve bytes. -/
theorem fatNameFromDot_take {n : ℕ} (h : 12 ≤ n) (name : Bytes) :
    fatNameFromDot (name.take n) = fatNameFromDot name := by
  have hbase : (name.take n).take 8 = name.take 8 := by
    rw [List.take_take, Nat.min_eq_left (by omega)]
  unfold fatNameFromDot
  rw [hbase]
  have hlen : ((name.take 8).takeWhile fun c => decide (c ≠ 0 ∧ c ≠ 46)).length ≤ 8 :=
    (List.takeWhile_sublist _).length_le.trans (List.length_take_le 8 name)
  generalize (name.take 8).takeWhile (fun c => decide (c ≠ 0 ∧ c ≠ 46)) = base at *
  have hhead : ((name.take n).drop base.length).head? = (name.drop base.length).head? := by
    rw [List.drop_take, List.head?_take, if_neg (by omega)]
  have htail : ∀ l : Bytes, 4 ≤ n - base.length →
      ((l.take (n - base.length)).tail).take 3 = l.tail.take 3 := by
    intro l hl
    rw [← List.drop_one, ← List.drop_one, List.drop_take, List.take_take,
      Nat.min_eq_left (by omega)]
  simp only [hhead]
  split_ifs
  · rw [List.drop_take, htail _ (by omega)]
  · rw [List.drop_take, List.take_take, Nat.min_eq_left (by omega)]

/-! ### Slots -/

/-- The bytes of an entry. -/
def Dirent.cut (e : Dirent) : Dirent := fun i => if i < 32 then e i else 0

/-- A slot that is stored to holds the entry. -/
theorem slot_setSlot_self (d : Disk) (s : Slot) (e : Dirent) :
    (d.setSlot s e s.lba).slot s.off = e.cut := by
  unfold Disk.setSlot
  rw [Function.update_self]
  funext i
  unfold Sector.slot Dirent.cut
  split_ifs with hi
  · exact Sector.put_of_inside hi
  · rfl

/-- Other slots keep their bytes. -/
theorem slot_setSlot_of_ne (d : Disk) {s s' : Slot} {e : Dirent} (h : s.off % 32 = 0)
    (h' : s'.off % 32 = 0) (hne : s'.lba ≠ s.lba ∨ s'.off ≠ s.off) :
    (d.setSlot s e s'.lba).slot s'.off = (d s'.lba).slot s'.off := by
  unfold Disk.setSlot
  by_cases hlba : s'.lba = s.lba
  · rw [hlba, Function.update_self]
    funext i
    unfold Sector.slot
    split_ifs with hi
    · exact Sector.put_of_outside (by omega)
    · rfl
  · rw [Function.update_of_ne hlba]

theorem size_patch (e : Dirent) (size first : ℕ) : (e.patch size first).size = size % 2 ^ 32 := by
  unfold Dirent.size Dirent.patch
  rw [readLe_put_of_apart (Or.inr (by norm_num)), readLe_put_of_apart (Or.inr (by norm_num)),
    readLe_put_self]
  rfl

/-- The size of an entry is read from its 32 bytes. -/
theorem size_cut (e : Dirent) : e.cut.size = e.size :=
  readLe_congr fun i hi => if_pos (by omega)

namespace FatState

variable {G : FatState}

/-- The live slots among the slots of a directory. -/
def liveSlots (slots : List Slot) : List Slot :=
  ((slots.filter (!·.raw.isLong)).takeWhile (!·.raw.isEnd)).filter (!·.raw.isDeleted)

theorem map_toSlot_live (m : FatMem Disk) (dir : ℕ) :
    (G.live m dir).map (·.toSlot) = liveSlots (G.dirSlots m.dev dir) := by
  rw [liveSlots, ← map_toSlot_entriesOf _ m.lfn.reset, List.takeWhile_map, List.filter_map]
  rfl

/-- The first live slot with the 8.3 name only depends on the slots of the directory. -/
theorem map_toSlot_keyed (m : FatMem Disk) (dir : ℕ) (name : Bytes) :
    (G.keyed m dir name).map (·.toSlot) =
      (liveSlots (G.dirSlots m.dev dir)).find? fun s => s.raw.name == fatNameFromDot name := by
  rw [← map_toSlot_live, List.find?_map]
  rfl

theorem name_of_keyed {m : FatMem Disk} {dir : ℕ} {name : Bytes} {t : Entry}
    (h : G.keyed m dir name = some t) : t.raw.name = fatNameFromDot name := by
  have hkey := List.find?_some h
  exact beq_iff_eq.1 hkey

end FatState

end LighthOS
