/-
# The slots of a directory under `fat_create` and `fat_unlink`

A directory with long names is a list of slots in which a run of long slots stands in front of the
entry that it names.  The driver sees the slots with an 8.3 name only: `fat_create` stores an entry
in the first of them that is free, or behind all of them in a new cluster (`fatCreate_slots`), and
`fat_unlink` marks one of them (`fatUnlink_slots`).  Neither touches a long slot.
-/

import LighthOS.Fs.FatDirectory
import LighthOS.Fs.FatFree
import LighthOS.Fs.FatLongNames

namespace LighthOS

/-- A slot that `cb_find_free_slot` takes. -/
def Slot.isFree (s : Slot) : Bool := !s.raw.isLong && (s.raw.isEnd || s.raw.isDeleted)

namespace FatState

/-- The root of FAT16, or a directory with a chain. -/
def SoundDir (G : FatState) (d : Disk) (p : ℕ) : Prop := isRootDir G p = true ∨ ∃ l, G.IsChain d p l

/-- **An entry is stored in the first free slot**: one of the directory or, if it has none, of a
cluster behind it. -/
def StoresAt (slots slots' : List Slot) (s : Slot) (ent : Dirent) : Prop :=
  ∃ tail pre post, (∀ t ∈ tail, t.raw = fun _ => 0) ∧ (tail = [] ∨ ∀ t ∈ slots, t.isFree = false) ∧
    slots ++ tail = pre ++ s :: post ∧ (∀ t ∈ pre, t.isFree = false) ∧ s.isFree = true ∧
    slots' = pre ++ s.put ent :: post

variable {G : FatState} {d d' : Disk} {m m' : FatMem Disk} {p c : ℕ} {K : List ℕ} {name : Bytes}

theorem SoundDir.zero_or_chain (h : SoundDir G d p) : p = 0 ∨ ∃ l, G.IsChain d p l := by
  refine h.imp (fun hroot => ?_) id
  rw [isRootDir, Bool.and_eq_true, beq_iff_eq] at hroot
  exact hroot.2

/-- **A call that stays in clusters of its own** leaves a directory as it is. -/
theorem SoundDir.only (hG : GeoOk G) (h : SoundDir G d p) (ho : Only G d d' K)
    (hdis : ∀ l, G.IsChain d p l → l.Disjoint K) : SoundDir G d' p ∧ G.dirSlots d' p = G.dirSlots d p := by
  refine ⟨h.imp id fun ⟨l, hl⟩ => ⟨l, ?_⟩, dirSlots_only hG ho h.zero_or_chain hdis⟩
  exact IsChain.congr hl fun x hx => ho.entries x (IsChain.valid hl hx) fun hK => hdis l hl hx hK

/-- A store to a slot of a directory. -/
theorem SoundDir.setSlot (hG : GeoOk G) (h : SoundDir G d p) {pre post : List Slot} {s : Slot}
    (hsplit : G.dirSlots d p = pre ++ s :: post) (e : Dirent) :
    SoundDir G (d.setSlot s e) p ∧ G.dirSlots (d.setSlot s e) p = pre ++ s.put e :: post := by
  have hmem : s ∈ G.dirSlots d p := by rw [hsplit]; simp
  obtain ⟨hlba, ⟨i, -, hoff⟩, -⟩ := mem_dirSlots.1 hmem
  have ht := dirLbas_not_inTable hG h.zero_or_chain hlba
  have hchain : ∀ l, G.IsChain d p l → G.IsChain (d.setSlot s e) p l := fun l hl =>
    IsChain.congr hl fun x hx => hG.entryAt_update ht (IsChain.valid hl hx).2
  refine ⟨h.imp id fun ⟨l, hl⟩ => ⟨l, hchain l hl⟩, ?_⟩
  have hspread := spread_dirSlots hG h.zero_or_chain
  rw [hsplit] at hspread
  rw [dirSlots_setSlot hG ht (by omega), hsplit, hspread.map_replace]

/-- The first free slot. -/
theorem freeSlot_toSlot (m : FatMem Disk) (p : ℕ) :
    (G.freeSlot m p).map (·.toSlot) = (G.dirSlots m.dev p).find? Slot.isFree := by
  have hfilter : ((G.dirSlots m.dev p).filter (!·.raw.isLong)).find? (fun s => s.raw.isEnd || s.raw.isDeleted) =
      (G.dirSlots m.dev p).find? Slot.isFree := by
    rw [List.find?_filter]
    refine congrArg (List.find? · _) (funext fun s => ?_)
    rw [Slot.isFree, Bool.decide_and, Bool.decide_eq_true, Bool.decide_eq_true]
  rw [← hfilter, ← map_toSlot_entriesOf _ m.lfn.reset, List.find?_map]
  rfl

theorem freeSlot_eq_some {x : Entry} (h : G.freeSlot m p = some x) : ∃ pre post,
    G.dirSlots m.dev p = pre ++ x.toSlot :: post ∧ (∀ t ∈ pre, t.isFree = false) ∧ x.toSlot.isFree = true := by
  have hslot := freeSlot_toSlot (G := G) m p
  rw [h, Option.map_some] at hslot
  obtain ⟨hfree, pre, post, hsplit, hpre⟩ := List.find?_eq_some_iff_append.1 hslot.symm
  exact ⟨pre, post, hsplit, fun t ht => by simpa using hpre t ht, hfree⟩

theorem freeSlot_eq_none (h : G.freeSlot m p = none) : ∀ t ∈ G.dirSlots m.dev p, t.isFree = false := by
  have hslot := freeSlot_toSlot (G := G) m p
  rw [h, Option.map_none] at hslot
  intro t ht
  simpa using List.find?_eq_none.1 hslot.symm t ht

theorem Slot.isFree_zero {s : Slot} (h : s.raw = fun _ => 0) : s.isFree = true := by
  unfold Slot.isFree
  rw [h]
  rfl

/-- The slot in which an entry is stored is the first free one. -/
theorem StoresAt.find? {slots slots' : List Slot} {s : Slot} {ent : Dirent} (h : StoresAt slots slots' s ent)
    (hs : s ∈ slots) : slots.find? Slot.isFree = some s := by
  obtain ⟨tail, pre, post, -, -, hsplit, hpre, hfree, -⟩ := h
  have hall : (slots ++ tail).find? Slot.isFree = some s := by
    rw [hsplit]
    exact List.find?_eq_some_iff_append.2 ⟨hfree, pre, post, rfl, fun t ht => by rw [hpre t ht]; rfl⟩
  obtain ⟨u, hu⟩ := Option.isSome_iff_exists.1 (List.find?_isSome.2 ⟨s, hs, hfree⟩)
  rw [List.find?_append, hu] at hall
  rw [hu]
  exact hall

/-! ### `fat_create` -/

/-- **The second half of `fat_create`** on the slots. -/
theorem addEntry_slots (hG : GeoOk G) (hp : SoundDir G m.dev p) {ent : Dirent} {fuel : ℕ} {r : ℤ}
    (hf : addEntry Disk.dev G fuel p ent m = some (r, m')) : SoundDir G m'.dev p ∧
    (r = -1 ∧ G.dirSlots m'.dev p = G.dirSlots m.dev p ∨
      r = 0 ∧ ∃ s, StoresAt (G.dirSlots m.dev p) (G.dirSlots m'.dev p) s ent) := by
  rcases addEntry_cases hG hp hf with ⟨hr, hd, -, -⟩ | ⟨hr, x, hx, hd⟩ | ⟨hr, hfull, l, x, c, hl, hc, hzero, hd⟩
  · rw [hd]
    exact ⟨hp, Or.inl ⟨hr, rfl⟩⟩
  · obtain ⟨pre, post, hsplit, hpre, hfree⟩ := freeSlot_eq_some hx
    obtain ⟨hsound, hslots⟩ := hp.setSlot hG hsplit ent
    rw [hd]
    refine ⟨hsound, Or.inr ⟨hr, x.toSlot, [], pre, post, by simp, Or.inl rfl, ?_, hpre, hfree, hslots⟩⟩
    rw [List.append_nil, hsplit]
  · obtain ⟨hg, -, rest, hslots, hzeros⟩ := grow_dirSlots hG hl hc hzero rfl
    obtain ⟨hsound, hstored⟩ := SoundDir.setSlot hG (Or.inr ⟨_, hg.chain⟩) hslots ent
    have hnone := freeSlot_eq_none hfull
    rw [hd]
    exact ⟨hsound, Or.inr ⟨hr, _, G.clearedSlots c rest, G.dirSlots m.dev p, _, hzeros, Or.inr hnone, rfl, hnone,
      Slot.isFree_zero rfl, hstored⟩⟩

/-- The cluster of a new directory, with its first sector. -/
theorem only_newDir (hG : GeoOk G) (hc : G.Valid c) :
    Only G d (Function.update (G.claim d c) (G.fatClusterToLba c) (dotSector c p)) [c] :=
  (only_claim hG hc).update hG List.mem_cons_self (fatClusterToLba_mem hG.perCluster c)

/-- **`fat_create` on the slots**: it fails and leaves them, or the name is not in the directory and
its entry is stored in the first free slot. -/
theorem fatCreate_slots (hG : GeoOk G) (hp : SoundDir G m.dev p) {type : VfsType} {fuel : ℕ} {r : ℤ}
    (hf : fatCreate Disk.dev G fuel p name type m = some (r, m')) : SoundDir G m'.dev p ∧
    (r = -1 ∧ G.dirSlots m'.dev p = G.dirSlots m.dev p ∨
      r = 0 ∧ G.lookup m p name = none ∧ ∃ s first, StoresAt (G.dirSlots m.dev p) (G.dirSlots m'.dev p) s
        (newDirent (fatNameFromDot name) (attrOf type) first)) := by
  cases fatCreate_way hG.lastCluster_succ hf with
  | found _ => exact ⟨hp, Or.inl ⟨rfl, rfl⟩⟩
  | full _ _ => exact ⟨hp, Or.inl ⟨rfl, rfl⟩⟩
  | @file _ _ l hex hadd =>
      obtain ⟨hsound, hres⟩ := addEntry_slots (m := ⟨m.dev, l⟩) hG hp hadd
      refine ⟨hsound, hres.imp id fun ⟨hr, s, hs⟩ => ⟨hr, hex, s, 0, hs⟩⟩
  | @dir _ _ l c hex hff hrest =>
      obtain ⟨h₂, hle, hzero⟩ := freeFrom_eq_some hff
      -- the new directory lies in a cluster that was free
      have honly := only_newDir (d := m.dev) (p := p) hG ⟨h₂, hle⟩
      have hdis : ∀ l, G.IsChain m.dev p l → l.Disjoint [c] := fun l hl y hy hmem => by
        obtain rfl := List.mem_singleton.1 hmem
        exact (hl.used y hy).2 hzero
      generalize Function.update (G.claim m.dev c) (G.fatClusterToLba c) (dotSector c p) = d₂ at hrest honly
      obtain ⟨hsound, hsame⟩ := hp.only hG honly hdis
      obtain ⟨hsound', hres⟩ := addEntry_slots (m := ⟨d₂, l⟩) hG hsound hrest
      rw [hsame] at hres
      exact ⟨hsound', hres.imp id fun ⟨hr, s, hs⟩ => ⟨hr, hex, s, c, hs⟩⟩

/-! ### `fat_unlink` -/

theorem entryAt_of_rawAt {x : ℕ} (h : G.rawAt d' 0 x = G.rawAt d 0 x) : G.entryAt d' x = G.entryAt d x := by
  unfold rawAt at h
  rw [copyLba_zero] at h
  unfold entryAt entry
  unfold entrySize at h
  split_ifs at h ⊢
  · rw [h]
  · exact h

/-- A file whose clusters are not those of the directory. -/
def FileApart (G : FatState) (d : Disk) (p : ℕ) (e : Dirent) : Prop :=
  ∀ l, G.IsChain d p l → ∀ x ∈ l, ¬G.Reach d e.firstCluster x

/-- **`fat_unlink` on the slots**: the slot of the entry gets the mark of deleted entries. -/
theorem fatUnlink_slots (hG : GeoOk G) (hp : SoundDir G m.dev p) {x : Entry} (hx : G.keyed m p name = some x)
    (hfile : FileApart G m.dev p x.raw) {fuel : ℕ} {r : ℤ}
    (hf : fatUnlink Disk.dev G fuel p name m = some (r, m')) : SoundDir G m'.dev p ∧ ∃ pre post,
      G.dirSlots m.dev p = pre ++ x.toSlot :: post ∧
      G.dirSlots m'.dev p = pre ++ x.toSlot.put (Function.update x.raw 0 0xE5) :: post := by
  have heq := fatUnlink_eq (G := G) fuel p name m
  rw [hf, Option.map_some, hx, Option.elim_some] at heq
  obtain ⟨d₁, hfree, hstore⟩ := Option.map_eq_some_iff.1 heq.symm
  obtain ⟨-, hd⟩ := Prod.mk.inj hstore
  have hmem : x.toSlot ∈ G.dirSlots m.dev p :=
    toSlot_mem_of_entriesOf (mem_entries_of_live (List.mem_of_find?_eq_some hx))
  -- what is freed are entries of the table, none of them of the directory
  have hfreed : (∀ l, G.IsChain m.dev p l → ∀ y ∈ l, G.entryAt d₁ y = G.entryAt m.dev y) ∧
      ∀ lba, ¬G.InTable lba → d₁ lba = m.dev lba := by
    split_ifs at hfree with hfirst
    · have hexact := freeChain_exact hG.tableOk.ownEntries hG.copies hfree
      refine ⟨fun l hl y hy => entryAt_of_rawAt (hexact.others 0 hG.copies y (IsChain.valid hl hy).2 fun h =>
        hfile l hl y hy h.2), fun lba hnot => funext fun i => hexact.outside lba i fun f hf y hy h => hnot ?_⟩
      rw [h.1]
      exact hG.tableOk.copyLba_inTable hf hy.2
    · obtain rfl := Option.some.inj hfree
      exact ⟨fun _ _ _ _ => rfl, fun _ _ => rfl⟩
  obtain ⟨hentries, hsectors⟩ := hfreed
  have hsound₁ : SoundDir G d₁ p := hp.imp id fun ⟨l, hl⟩ => ⟨l, IsChain.congr hl (hentries l hl)⟩
  have hslots₁ : G.dirSlots d₁ p = G.dirSlots m.dev p := by
    have hlbas : G.dirLbas d₁ p = G.dirLbas m.dev p := by
      rcases hp.zero_or_chain with rfl | ⟨l, hl⟩
      · rw [dirLbas_zero, dirLbas_zero]
      · rw [dirLbas_chain hG hl, dirLbas_chain hG (IsChain.congr hl (hentries l hl))]
    rw [dirSlots_eq, dirSlots_eq, hlbas]
    refine List.flatMap_congr fun lba hlba => ?_
    unfold sectorSlots
    rw [hsectors lba (dirLbas_not_inTable hG hp.zero_or_chain hlba)]
  have hraw : (d₁ x.lba).slot x.off = x.raw := by
    rw [← hslots₁] at hmem
    exact (slot_of_mem_dirSlots hmem).symm
  obtain ⟨pre, post, hsplit⟩ := List.append_of_mem hmem
  obtain ⟨hsound, hslots⟩ := hsound₁.setSlot hG (hslots₁.trans hsplit) (Function.update x.raw 0 0xE5)
  rw [hraw] at hd
  rw [← hd]
  exact ⟨hsound, pre, post, hsplit, hslots⟩

end FatState

end LighthOS
