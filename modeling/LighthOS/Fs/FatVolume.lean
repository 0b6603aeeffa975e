/-
# Volumes that only this driver has written to

The directories of a volume on which `fat_create`, `fat_mkdir`, `fat_write` and `fat_unlink`
of `src/fs/fat.c` were the only ones to store anything: there are no long names and no
volume labels, and all slots behind the end mark are end marks (`TidyDir`).  On such a
directory the lookup, the flush and the deletion look for the same entry, the one with the
8.3 name (`lookup_eq_keyed`).

A `Volume` has tidy directories, no two entries of a directory have the same 8.3 name, and
the clusters are owned as `FatState.Owned` says.  The operations keep this, and what they do
to the lists of entries is an insertion (`Volume.fatCreate`), a deletion
(`Volume.fatUnlink`), or a new size and first cluster of one entry (`Volume.fatWrite`).
-/

import LighthOS.Fs.FatOwned

namespace LighthOS

/-! ### Entries -/

namespace Dirent

variable {e : Dirent} {size first : ℕ}

theorem patch_apply {i : ℕ} (h : i < 20 ∨ 22 ≤ i ∧ i < 26 ∨ 32 ≤ i) : e.patch size first i = e i := by
  unfold patch
  rw [Sector.put_of_outside (by omega), Sector.put_of_outside (by omega), Sector.put_of_outside (by omega)]

theorem name_congr {e' : Dirent} (h : ∀ i < 11, e' i = e i) : e'.name = e.name :=
  List.map_congr_left fun i hi => h i (List.mem_range.1 hi)

theorem name_patch : (e.patch size first).name = e.name :=
  name_congr fun i hi => patch_apply (Or.inl (by omega))

theorem attr_patch : (e.patch size first).attr = e.attr := patch_apply (Or.inl (by omega))

theorem firstCluster_patch : (e.patch size first).firstCluster = first % 2 ^ 32 := by
  unfold firstCluster patch
  rw [readLe_put_of_apart (Or.inr (by omega)), readLe_put_self, readLe_put_self]
  omega

theorem cut_apply {i : ℕ} (h : i < 32) : e.cut i = e i := if_pos h

theorem name_cut : e.cut.name = e.name := name_congr fun _ hi => cut_apply (by omega)

theorem attr_cut : e.cut.attr = e.attr := cut_apply (by omega)

theorem firstCluster_cut : e.cut.firstCluster = e.firstCluster := by
  unfold firstCluster
  rw [readLe_congr fun i hi => cut_apply (e := e) (by omega),
    readLe_congr fun i hi => cut_apply (e := e) (by omega)]

theorem isEnd_cut : e.cut.isEnd = e.isEnd := by rw [isEnd, isEnd, cut_apply (by omega)]

theorem isDeleted_cut : e.cut.isDeleted = e.isDeleted := by rw [isDeleted, isDeleted, cut_apply (by omega)]

theorem isDir_congr {e' : Dirent} (h : e'.attr = e.attr) : e'.isDir = e.isDir := by rw [isDir, isDir, h]

theorem isLong_congr {e' : Dirent} (h : e'.attr = e.attr) : e'.isLong = e.isLong := by rw [isLong, isLong, h]

theorem isVolumeId_congr {e' : Dirent} (h : e'.attr = e.attr) : e'.isVolumeId = e.isVolumeId := by
  rw [isVolumeId, isVolumeId, h]

theorem isDot_congr {e' : Dirent} (h : e'.name = e.name) : e'.isDot = e.isDot := by rw [isDot, isDot, h]

/-- Neither a long name nor a volume label. -/
def plain (e : Dirent) : Bool := !e.isLong && !e.isVolumeId

/-- An entry that is in use. -/
def listed (e : Dirent) : Bool := !e.isEnd && !e.isDeleted

/-- An entry that is in use, other than `.` and `..`. -/
def visible (e : Dirent) : Bool := e.listed && !e.isDot

theorem listed_cut : e.cut.listed = e.listed := by rw [listed, listed, isEnd_cut, isDeleted_cut]

theorem visible_cut : e.cut.visible = e.visible := by
  rw [visible, visible, listed_cut, isDot_congr name_cut]

theorem plain_congr {e' : Dirent} (h : e'.attr = e.attr) : e'.plain = e.plain := by
  rw [plain, plain, isLong_congr h, isVolumeId_congr h]

end Dirent

/-- The 8.3 name has eleven bytes. -/
theorem length_fatNameFromDot (name : Bytes) : (fatNameFromDot name).length = 11 := by
  have hpad : ∀ (n : ℕ) (s : Bytes), s.length ≤ n → (padded n s).length = n := by
    intro n s hs
    simp only [padded, List.length_append, List.length_replicate]
    omega
  unfold fatNameFromDot
  have hbase : ((name.take 8).takeWhile fun c => decide (c ≠ 0 ∧ c ≠ 46)).length ≤ 8 :=
    (List.takeWhile_sublist _).length_le.trans (List.length_take_le 8 name)
  have hext : ∀ rest : Bytes, ((rest.take 3).takeWhile (· ≠ 0)).length ≤ 3 := fun rest =>
    (List.takeWhile_sublist _).length_le.trans (List.length_take_le 3 rest)
  simp only [List.length_append]
  rw [hpad 8 _ (by rw [List.length_map]; exact hbase), hpad 3 _ (by rw [List.length_map]; exact hext _)]

/-- Its first byte is neither a dot nor the end mark. -/
theorem head_fatNameFromDot (name : Bytes) : (fatNameFromDot name).getD 0 0 ≠ 46 ∧
    (fatNameFromDot name).getD 0 0 ≠ 0 := by
  have hbytes : ∀ n : Fin 256, UInt8.ofNat n ≠ 0 → UInt8.ofNat n ≠ 46 →
      toUpper (UInt8.ofNat n) ≠ 46 ∧ toUpper (UInt8.ofNat n) ≠ 0 := by decide +kernel
  have hupper : ∀ c : UInt8, c ≠ 0 → c ≠ 46 → toUpper c ≠ 46 ∧ toUpper c ≠ 0 := by
    intro c h₀ h₁
    have h := hbytes ⟨c.toNat, c.toNat_lt⟩
    simp only [UInt8.ofNat_toNat] at h
    exact h h₀ h₁
  unfold fatNameFromDot
  simp only
  cases hb : (name.take 8).takeWhile fun c => decide (c ≠ 0 ∧ c ≠ 46) with
  | nil => simp [padded]
  | cons c base =>
      have hc : c ≠ 0 ∧ c ≠ 46 := by
        have hmem : c ∈ (name.take 8).takeWhile fun c => decide (c ≠ 0 ∧ c ≠ 46) := by rw [hb]; simp
        exact of_decide_eq_true (List.all_eq_true.1 List.all_takeWhile c hmem)
      simpa [padded] using hupper c hc.1 hc.2

section NewDirent

variable (name : Bytes) (attr : UInt8) (first : ℕ)

theorem name_newDirent_key {key : Bytes} (hlen : key.length = 11) : (newDirent key attr first).name = key := by
  unfold newDirent
  rw [Dirent.name_patch, Dirent.name]
  refine List.ext_getElem (by simp [hlen]) fun i h₁ h₂ => ?_
  simp only [List.getElem_map, List.getElem_range]
  rw [if_pos (by omega), List.getD_eq_getElem?_getD, List.getElem?_eq_getElem h₂, Option.getD_some]

theorem name_newDirent : (newDirent (fatNameFromDot name) attr first).name = fatNameFromDot name :=
  name_newDirent_key attr first (length_fatNameFromDot name)

theorem newDirent_zero (key : Bytes) : newDirent key attr first 0 = key.getD 0 0 := by
  unfold newDirent
  rw [Dirent.patch_apply (Or.inl (by omega))]
  rfl

theorem attr_newDirent (key : Bytes) : (newDirent key attr first).attr = attr := by
  unfold newDirent
  rw [Dirent.attr_patch]
  rfl

theorem firstCluster_newDirent (key : Bytes) (h : first < 2 ^ 32) :
    (newDirent key attr first).firstCluster = first := by
  unfold newDirent
  rw [Dirent.firstCluster_patch, Nat.mod_eq_of_lt h]

theorem size_newDirent (key : Bytes) : (newDirent key attr first).size = 0 := by
  unfold newDirent
  rw [size_patch, Nat.zero_mod]

theorem isEnd_newDirent : (newDirent (fatNameFromDot name) attr first).isEnd = false := by
  rw [Dirent.isEnd, newDirent_zero]
  exact beq_eq_false_iff_ne.2 (head_fatNameFromDot name).2

theorem isDot_newDirent : (newDirent (fatNameFromDot name) attr first).isDot = false := by
  have hhead := (head_fatNameFromDot name).1
  have hne : ∀ s : Bytes, s.getD 0 0 = 46 → fatNameFromDot name ≠ s := by
    rintro s hs rfl
    exact hhead hs
  rw [Dirent.isDot, name_newDirent, Bool.or_eq_false_iff]
  exact ⟨beq_eq_false_iff_ne.2 (hne _ rfl), beq_eq_false_iff_ne.2 (hne _ rfl)⟩

end NewDirent

/-- A key is not the name of `.` or `..`. -/
theorem isDot_of_key {e : Dirent} {name : Bytes} (h : e.name = fatNameFromDot name) : e.isDot = false := by
  have hname : (newDirent (fatNameFromDot name) 0 0).name = e.name := by rw [name_newDirent, h]
  rw [← Dirent.isDot_congr hname, isDot_newDirent]

/-! ### Tidy directories -/

/-- No long names and no volume labels, and nothing behind the end mark. -/
structure TidyDir (slots : List Slot) : Prop where
  plain : ∀ s ∈ slots, s.raw.plain = true
  tail : slots.Pairwise fun s t => s.raw.isEnd = true → t.raw.isEnd = true

/-- The slots have different places. -/
def Spread (slots : List Slot) : Prop := slots.Pairwise fun s t => ¬s.At t

/-- A slot with another entry. -/
def Slot.put (s : Slot) (e : Dirent) : Slot := ⟨s.lba, s.off, e.cut⟩

variable {slots as bs : List Slot} {s t : Slot} {e : Dirent}

theorem Spread.map_replace (h : Spread (as ++ s :: bs)) (e : Dirent) :
    (as ++ s :: bs).map (s.replace e) = as ++ s.put e :: bs := by
  obtain ⟨-, htail, hcross⟩ := List.pairwise_append.1 h
  obtain ⟨hbs, -⟩ := List.pairwise_cons.1 htail
  have hsame : ∀ l : List Slot, (∀ t ∈ l, ¬s.At t) → l.map (s.replace e) = l := by
    intro l hl
    conv_rhs => rw [← List.map_id l]
    exact List.map_congr_left fun t ht => if_neg (hl t ht)
  rw [List.map_append, List.map_cons, hsame as, hsame bs hbs]
  · rw [Slot.replace, if_pos ⟨rfl, rfl⟩]
    rfl
  · intro t ht hat
    exact hcross t ht s List.mem_cons_self ⟨hat.1.symm, hat.2.symm⟩

/-- Slots that do not have the place are not replaced. -/
theorem map_replace_of_forall (h : ∀ t ∈ slots, ¬s.At t) : slots.map (s.replace e) = slots := by
  conv_rhs => rw [← List.map_id slots]
  exact List.map_congr_left fun t ht => if_neg (h t ht)

theorem TidyDir.put (h : TidyDir (as ++ s :: bs)) (hbefore : ∀ t ∈ as, t.raw.isEnd = false)
    (hplain : e.plain = true) (hend : e.isEnd = false) : TidyDir (as ++ s.put e :: bs) := by
  obtain ⟨hp, ht⟩ := h
  obtain ⟨has, htail, hcross⟩ := List.pairwise_append.1 ht
  obtain ⟨-, hbs⟩ := List.pairwise_cons.1 htail
  have hput : (s.put e).raw.isEnd = false := by
    rw [Slot.put, Dirent.isEnd_cut, hend]
  refine ⟨fun t ht => ?_, List.pairwise_append.2 ⟨has, List.pairwise_cons.2 ⟨fun t _ h => ?_, hbs⟩, ?_⟩⟩
  · rcases List.mem_append.1 ht with ht | ht
    · exact hp t (List.mem_append_left _ ht)
    · rcases List.mem_cons.1 ht with rfl | ht
      · rw [Slot.put, Dirent.plain_congr Dirent.attr_cut, hplain]
      · exact hp t (List.mem_append_right _ (List.mem_cons_of_mem _ ht))
  · rw [hput] at h
    cases h
  · intro t ht u hu hend'
    rw [hbefore t ht] at hend'
    cases hend'

/-- Free slots at the end of a tidy directory. -/
theorem TidyDir.append {slots zs : List Slot} (ht : TidyDir slots)
    (hz : ∀ s ∈ zs, s.raw = fun _ => 0) : TidyDir (slots ++ zs) := by
  have hend : ∀ s ∈ zs, s.raw.isEnd = true := fun s hs => by rw [hz s hs]; rfl
  refine ⟨fun s hs => ?_, List.pairwise_append.2 ⟨ht.tail, ?_, fun _ _ t hmem _ => hend t hmem⟩⟩
  · rcases List.mem_append.1 hs with hs | hs
    · exact ht.plain s hs
    · rw [hz s hs]
      rfl
  · exact List.pairwise_of_forall_mem_list fun _ _ t hmem _ => hend t hmem

/-- What comes before an entry that is in use has no end mark. -/
theorem TidyDir.before (h : TidyDir (as ++ s :: bs)) (hs : s.raw.isEnd = false) :
    ∀ t ∈ as, t.raw.isEnd = false := by
  intro t ht
  by_contra hend
  have := (List.pairwise_append.1 h.tail).2.2 t ht s List.mem_cons_self (by simpa using hend)
  rw [hs] at this
  cases this

theorem TidyDir.isLong (h : TidyDir slots) (hs : s ∈ slots) : s.raw.isLong = false := by
  have := h.plain s hs
  rw [Dirent.plain, Bool.and_eq_true, Bool.not_eq_true'] at this
  exact this.1

theorem TidyDir.filter_long (h : TidyDir slots) : slots.filter (!·.raw.isLong) = slots :=
  List.filter_eq_self.2 fun s hs => by rw [h.isLong hs]; rfl

/-- The live slots of a tidy directory. -/
theorem TidyDir.liveSlots_eq (h : TidyDir slots) :
    FatState.liveSlots slots = slots.filter fun s => !s.raw.isEnd && !s.raw.isDeleted := by
  have htake : ∀ l : List Slot, l.Pairwise (fun s t => s.raw.isEnd = true → t.raw.isEnd = true) →
      l.takeWhile (!·.raw.isEnd) = l.filter (!·.raw.isEnd) := by
    intro l
    induction l with
    | nil => exact fun _ => rfl
    | cons s l ih =>
        intro hl
        obtain ⟨hs, hl⟩ := List.pairwise_cons.1 hl
        rw [List.takeWhile_cons, List.filter_cons]
        cases hend : s.raw.isEnd with
        | false => simp [ih hl]
        | true =>
            have hnone : l.filter (!·.raw.isEnd) = [] := List.filter_eq_nil_iff.2 fun t ht => by
              simp [hs t ht hend]
            simp [hnone]
  rw [FatState.liveSlots, h.filter_long, htake slots h.tail, List.filter_filter]
  exact List.filter_congr fun s _ => Bool.and_comm _ _

namespace FatState

variable {G : FatState} {d d' : Disk} {p : ℕ} {m m' : FatMem Disk} {name : Bytes}

theorem children_eq (h : TidyDir (G.dirSlots d p)) :
    G.children d p = (G.dirSlots d p).filter (·.raw.visible) := by
  rw [children, h.liveSlots_eq, List.filter_filter]
  exact List.filter_congr fun s _ => by rw [Dirent.visible, Dirent.listed, Bool.and_comm]

/-- The entries `.` and `..` of a directory. -/
def dots (G : FatState) (d : Disk) (p : ℕ) : List Slot := (liveSlots (G.dirSlots d p)).filter (·.raw.isDot)

theorem dots_eq (h : TidyDir (G.dirSlots d p)) :
    G.dots d p = (G.dirSlots d p).filter fun s => s.raw.listed && s.raw.isDot := by
  rw [dots, h.liveSlots_eq, List.filter_filter]
  exact List.filter_congr fun s _ => by rw [Dirent.listed, Bool.and_comm]

/-- The entries that the walk comes to have no long name. -/
theorem entriesOf_lfn {l : Lfn} (hl : l.active = false) (h : ∀ s ∈ slots, s.raw.isLong = false) {x : Entry}
    (hx : x ∈ entriesOf slots l) : x.lfn.active = false := by
  induction slots generalizing l with
  | nil => cases hx
  | cons s slots ih =>
      rw [entriesOf, h s List.mem_cons_self] at hx
      rcases List.mem_cons.1 hx with rfl | hx
      · exact hl
      · exact ih rfl (fun t ht => h t (List.mem_cons_of_mem _ ht)) hx

theorem mem_entries_of_live {x : Entry} (hx : x ∈ G.live m p) : x ∈ G.entries m p :=
  (List.takeWhile_sublist _).subset (List.mem_of_mem_filter hx)

/-- **A lookup** in a tidy directory finds the entry with the 8.3 name. -/
theorem lookup_eq_keyed (h : TidyDir (G.dirSlots m.dev p)) : G.lookup m p name = G.keyed m p name := by
  refine List.find?_congr fun x hx => ?_
  have hmem := mem_entries_of_live hx
  have hplain := h.plain x.toSlot (toSlot_mem_of_entriesOf hmem)
  rw [Dirent.plain, Bool.and_eq_true, Bool.not_eq_true', Bool.not_eq_true'] at hplain
  have hlfn := entriesOf_lfn (l := m.lfn.reset) rfl (fun s hs => h.isLong hs) hmem
  have hlong : longMatch name x.lfn = false := by
    rw [longMatch, Lfn.name?, hlfn]
    rfl
  rw [lookupMatch, hlong, hplain.2, Bool.or_false]
  rfl

theorem mem_children_of_live (hs : s ∈ liveSlots (G.dirSlots d p)) (hname : s.raw.name = fatNameFromDot name) :
    s ∈ G.children d p :=
  List.mem_filter.2 ⟨hs, by rw [isDot_of_key hname]; rfl⟩

/-- The entry with the 8.3 name, in the list of the entries. -/
theorem keyed_toSlot {x : Entry} (h : G.keyed m p name = some x) :
    x.toSlot ∈ G.children m.dev p ∧ x.raw.name = fatNameFromDot name := by
  have hname := name_of_keyed h
  have hslot := congrArg (Option.map (·.toSlot)) h
  rw [map_toSlot_keyed, Option.map_some] at hslot
  exact ⟨mem_children_of_live (List.mem_of_find?_eq_some hslot) hname, hname⟩

/-- **The key is present** exactly where an entry has it. -/
theorem keyed_isSome : (G.keyed m p name).isSome ↔ ∃ s ∈ G.children m.dev p, s.raw.name = fatNameFromDot name := by
  constructor
  · intro h
    obtain ⟨x, hx⟩ := Option.isSome_iff_exists.1 h
    exact ⟨x.toSlot, keyed_toSlot hx⟩
  · rintro ⟨s, hs, hname⟩
    have hfind := map_toSlot_keyed (G := G) m p name
    have hsome : ((liveSlots (G.dirSlots m.dev p)).find? fun s => s.raw.name == fatNameFromDot name).isSome :=
      List.find?_isSome.2 ⟨s, List.mem_of_mem_filter hs, beq_iff_eq.2 hname⟩
    rw [← hfind, Option.isSome_map] at hsome
    exact hsome

theorem map_toSlot_freeSlot (h : TidyDir (G.dirSlots m.dev p)) : (G.freeSlot m p).map (·.toSlot) =
    (G.dirSlots m.dev p).find? fun s => s.raw.isEnd || s.raw.isDeleted := by
  rw [← h.filter_long, ← map_toSlot_entriesOf _ m.lfn.reset, List.find?_map]
  rfl

/-- The first free slot of a tidy directory. -/
theorem freeSlot_split (h : TidyDir (G.dirSlots m.dev p)) {x : Entry} (hx : G.freeSlot m p = some x) :
    ∃ as bs, G.dirSlots m.dev p = as ++ x.toSlot :: bs ∧ (∀ t ∈ as, t.raw.isEnd = false) ∧
      x.raw.listed = false := by
  have hslot := map_toSlot_freeSlot h
  rw [hx, Option.map_some] at hslot
  obtain ⟨hfree, as, bs, hsplit, hbefore⟩ := List.find?_eq_some_iff_append.1 hslot.symm
  refine ⟨as, bs, hsplit, fun t ht => ?_, ?_⟩
  · have := hbefore t ht
    rw [Bool.not_eq_true', Bool.or_eq_false_iff] at this
    exact this.1
  · rw [Dirent.listed]
    rcases Bool.or_eq_true_iff.1 hfree with hend | hdel
    · rw [hend]
      rfl
    · rw [hdel]
      simp

theorem freeSlot_none (h : TidyDir (G.dirSlots m.dev p)) (hx : G.freeSlot m p = none) :
    ∀ t ∈ G.dirSlots m.dev p, t.raw.isEnd = false := by
  have hfind := map_toSlot_freeSlot h
  rw [hx, Option.map_none] at hfind
  intro t ht
  have := List.find?_eq_none.1 hfind.symm t ht
  rw [Bool.not_eq_true, Bool.or_eq_false_iff] at this
  exact this.1

/-! ### Volumes -/

/-- **A volume that only this driver has written to**, with the directories `D`. -/
structure Volume (G : FatState) (d : Disk) (D X : Set ℕ) : Prop extends Owned G d D X where
  tidy : ∀ p ∈ D, TidyDir (G.dirSlots d p)
  keys : ∀ p ∈ D, (G.children d p).Pairwise fun s t => s.raw.name ≠ t.raw.name
  zero : G.isFat32 = true → 0 ∉ D
  dotted : ∀ p ∈ D, (G.dots d p).map (·.raw.name) =
    if p = G.rootDir then [] else [padded 11 [46], padded 11 [46, 46]]
  loop : ∀ p ∈ D, ∀ s ∈ G.children d p, s.raw.firstCluster = p → p = 0

variable {D X : Set ℕ} {q c : ℕ}

theorem spread_dirSlots (hG : GeoOk G) (hp : p = 0 ∨ ∃ l, G.IsChain d p l) : Spread (G.dirSlots d p) := by
  have hnodup : (G.dirLbas d p).Nodup := by
    rcases hp with rfl | ⟨l, hl⟩
    · rw [dirLbas_zero]
      cases h32 : G.isFat32 with
      | true => exact List.nodup_nil
      | false => exact hG.rootLbas_nodup h32
    · rw [dirLbas_chain hG hl, List.nodup_flatMap]
      refine ⟨fun c hc => hG.clusterLbas_nodup (IsChain.valid hl hc), ?_⟩
      refine hl.nodup.imp_of_mem fun {a b} ha hb hab lba h₁ h₂ => hab ?_
      exact hG.cluster_unique (IsChain.valid hl ha) (IsChain.valid hl hb) h₁ h₂
  unfold Spread
  rw [dirSlots_eq, List.pairwise_flatMap]
  refine ⟨fun lba _ => ?_, hnodup.imp fun {a b} hab s hs t ht hat => ?_⟩
  · unfold sectorSlots
    rw [List.map_map, List.pairwise_map]
    exact List.nodup_range.imp fun {i j} hij hat => hij (by
      have := hat.2
      simp only [Function.comp_apply] at this
      omega)
  · obtain ⟨hs, -⟩ := mem_sectorSlots.1 hs
    obtain ⟨ht, -⟩ := mem_sectorSlots.1 ht
    exact hab (by rw [← hs, ← ht, hat.1])

/-- Two directories share no sector. -/
theorem Owned.dir_unique (hG : GeoOk G) (ho : Owned G d D X) (hp : p ∈ D) (hq : q ∈ D ∨ q ∈ X) {lba : ℕ}
    (h : lba ∈ G.dirLbas d p) (h' : lba ∈ G.dirLbas d q) : p = q := by
  by_contra hne
  -- the chain of the one that has one is apart from the other
  have hapart : ∀ {a b : ℕ}, a ∈ D → (b ∈ D ∨ b ∈ X) → b ≠ 0 → a ≠ b → lba ∈ G.dirLbas d a → lba ∈ G.dirLbas d b →
      False := by
    intro a b ha hb h₀ hab h₁ h₂
    have hmem : b ∈ G.heads d D ∪ X := hb.imp (fun hb => ⟨h₀, Or.inl hb⟩) id
    obtain ⟨l, hl⟩ := ho.chains.chain b hmem
    exact dirLbas_apart hG (ho.dir_chain ha) (fun x hx => IsChain.valid hl hx)
      (fun k hk => ho.dir_apart ha hmem hab hl hk) h₁ ((mem_dirLbas_chain hG hl).1 h₂)
  by_cases hq₀ : q = 0
  · rcases hq with hq | hq
    · exact hapart hq (Or.inl hp) (fun h => hne (h.trans hq₀.symm)) (Ne.symm hne) h' h
    · obtain ⟨l, hl⟩ := ho.chains.chain q (Or.inr hq)
      have := (IsChain.valid hl hl.head_mem).1
      omega
  · exact hapart hp hq hq₀ hne h h'

section SetSlot

variable (hG : GeoOk G)
include hG

section Split

variable (hp : p ∈ D) (hsplit : G.dirSlots d p = as ++ s :: bs)
include hp hsplit

theorem Owned.slot_place (ho : Owned G d D X) : ¬G.InTable s.lba ∧ s.off % 32 = 0 ∧ s.lba ∈ G.dirLbas d p := by
  obtain ⟨hlba, ⟨i, -, hi⟩, -⟩ := mem_dirSlots.1 (show s ∈ G.dirSlots d p by rw [hsplit]; simp)
  exact ⟨dirLbas_not_inTable hG (ho.dir_chain hp) hlba, by omega, hlba⟩

/-- **A store to a slot of a directory**: what it changes in the lists of the directories. -/
theorem Owned.setSlot_slots (ho : Owned G d D X) (e : Dirent) :
    (∀ x, G.Valid x → G.entryAt (d.setSlot s e) x = G.entryAt d x) ∧
      G.dirSlots (d.setSlot s e) p = as ++ s.put e :: bs ∧
      ∀ q, q ∈ D ∨ q ∈ X → q ≠ p → G.dirSlots (d.setSlot s e) q = G.dirSlots d q := by
  obtain ⟨ht, hoff, hlba⟩ := ho.slot_place hG hp hsplit
  refine ⟨fun x hx => hG.entryAt_update ht hx.2, ?_, fun q hq hqp => ?_⟩
  · have hspread := spread_dirSlots hG (ho.dir_chain hp)
    rw [dirSlots_setSlot hG ht hoff, hsplit]
    rw [hsplit] at hspread
    exact hspread.map_replace e
  · rw [dirSlots_setSlot hG ht hoff]
    refine map_replace_of_forall fun t ht' hat => hqp ?_
    obtain ⟨hlba', -⟩ := mem_dirSlots.1 ht'
    exact (ho.dir_unique hG hp hq hlba (hat.1 ▸ hlba')).symm

theorem Owned.not_at (ho : Owned G d D X) : (∀ t ∈ as, ¬s.At t) ∧ ∀ t ∈ bs, ¬s.At t := by
  have hspread := spread_dirSlots hG (ho.dir_chain hp)
  rw [hsplit] at hspread
  obtain ⟨-, htail, hcross⟩ := List.pairwise_append.1 hspread
  obtain ⟨hbs, -⟩ := List.pairwise_cons.1 htail
  exact ⟨fun t ht hat => hcross t ht s List.mem_cons_self ⟨hat.1.symm, hat.2.symm⟩, hbs⟩

end Split

/-- The entry `e` may be stored to the slot `s` of the directory `p`: the slot is not behind the
end of the directory, and neither its entry nor the new one is a dot entry. -/
structure Fits (G : FatState) (d : Disk) (D : Set ℕ) (p : ℕ) (as : List Slot) (s : Slot) (bs : List Slot)
    (e : Dirent) : Prop where
  dir : p ∈ D
  split : G.dirSlots d p = as ++ s :: bs
  before : ∀ t ∈ as, t.raw.isEnd = false
  plain : e.plain = true
  notEnd : e.isEnd = false
  notDot : e.isDot = false
  slot : s.raw.listed = false ∨ s.raw.isDot = false

variable (hfit : Fits G d D p as s bs e) (hv : Volume G d D X)
include hfit hv

theorem Volume.setSlot_tidy (hq : q ∈ D) : TidyDir (G.dirSlots (d.setSlot s e) q) := by
  obtain ⟨-, hself, hother⟩ := hv.toOwned.setSlot_slots hG hfit.dir hfit.split e
  by_cases hqp : q = p
  · have htidy := hv.tidy p hfit.dir
    rw [hqp, hself]
    rw [hfit.split] at htidy
    exact htidy.put hfit.before hfit.plain hfit.notEnd
  · rw [hother q (Or.inl hq) hqp]
    exact hv.tidy q hq

/-- The entries behind a store to a slot. -/
theorem Volume.setSlot_children :
    G.children d p = as.filter (·.raw.visible) ++ (if s.raw.visible then [s] else []) ++ bs.filter (·.raw.visible) ∧
      G.children (d.setSlot s e) p = as.filter (·.raw.visible) ++ (if e.visible then [s.put e] else []) ++
        bs.filter (·.raw.visible) ∧
      ∀ q ∈ D, q ≠ p → G.children (d.setSlot s e) q = G.children d q := by
  obtain ⟨-, hself, hother⟩ := hv.toOwned.setSlot_slots hG hfit.dir hfit.split e
  have hput : (s.put e).raw.visible = e.visible := Dirent.visible_cut
  refine ⟨?_, ?_, fun q hq hqp => ?_⟩
  · rw [children_eq (hv.tidy p hfit.dir), hfit.split, List.filter_append, List.filter_cons, List.append_assoc]
    split_ifs <;> rfl
  · rw [children_eq (hv.setSlot_tidy hG hfit hfit.dir), hself, List.filter_append, List.filter_cons, hput, List.append_assoc]
    split_ifs <;> rfl
  · rw [children, children, hother q (Or.inl hq) hqp]

theorem Volume.setSlot_dots (hq : q ∈ D) : G.dots (d.setSlot s e) q = G.dots d q := by
  obtain ⟨-, hself, hother⟩ := hv.toOwned.setSlot_slots hG hfit.dir hfit.split e
  by_cases hqp : q = p
  · have hold : (s.raw.listed && s.raw.isDot) = false := by
      rcases hfit.slot with h | h <;> rw [h]
      · rfl
      · exact Bool.and_false _
    have hnew : ((s.put e).raw.listed && (s.put e).raw.isDot) = false := by
      rw [show (s.put e).raw.isDot = e.isDot from Dirent.isDot_congr Dirent.name_cut, hfit.notDot, Bool.and_false]
    rw [hqp, dots_eq (hv.setSlot_tidy hG hfit hfit.dir), dots_eq (hv.tidy p hfit.dir), hself, hfit.split]
    simp only [List.filter_append, List.filter_cons, hold, hnew, Bool.false_eq_true, if_false]
  · rw [dots, dots, hother q (Or.inl hq) hqp]

theorem Volume.setSlot_dotted (hq : q ∈ D) : (G.dots (d.setSlot s e) q).map (·.raw.name) =
    if q = G.rootDir then [] else [padded 11 [46], padded 11 [46, 46]] := by
  rw [hv.setSlot_dots hG hfit hq]
  exact hv.dotted q hq

/-- The entries of all directories, behind a store to a slot. -/
theorem Volume.mem_setSlot_children (hq : q ∈ D) {u : Slot}
    (hu : u ∈ G.children (d.setSlot s e) q) : u ∈ G.children d q ∧ ¬(s.put e).At u ∨ u = s.put e := by
  obtain ⟨hold, hnew, hother⟩ := hv.setSlot_children hG hfit
  obtain ⟨has, hbs⟩ := hv.toOwned.not_at hG hfit.dir hfit.split
  by_cases hqp : q = p
  · subst hqp
    rw [hnew, List.mem_append, List.mem_append] at hu
    rcases hu with (hu | hu) | hu
    · refine Or.inl ⟨by rw [hold]; simp [List.mem_append.2, hu], fun hat => ?_⟩
      exact has u (List.mem_of_mem_filter hu) ⟨hat.1, hat.2⟩
    · right
      split_ifs at hu
      · exact List.mem_singleton.1 hu
      · cases hu
    · refine Or.inl ⟨by rw [hold]; simp [List.mem_append.2, hu], fun hat => ?_⟩
      exact hbs u (List.mem_of_mem_filter hu) ⟨hat.1, hat.2⟩
  · rw [hother q hq hqp] at hu
    refine Or.inl ⟨hu, fun hat => hqp ?_⟩
    obtain ⟨-, -, hlba⟩ := hv.toOwned.slot_place hG hfit.dir hfit.split
    obtain ⟨hlba', -⟩ := mem_dirSlots.1 (mem_children hu)
    rw [show u.lba = s.lba from hat.1] at hlba'
    exact (hv.toOwned.dir_unique hG hfit.dir (Or.inl hq) hlba hlba').symm

/-- The keys behind a store of an entry whose key no other entry has. -/
theorem Volume.setSlot_keys (hkey : ∀ t ∈ G.children d p, ¬s.At t → t.raw.name ≠ e.name)
    (hq : q ∈ D) : (G.children (d.setSlot s e) q).Pairwise fun s t => s.raw.name ≠ t.raw.name := by
  obtain ⟨hold, hnew, hother⟩ := hv.setSlot_children hG hfit
  by_cases hqp : q = p
  · subst hqp
    have hkeys := hv.keys q hq
    obtain ⟨has, hbs⟩ := hv.toOwned.not_at hG hfit.dir hfit.split
    have hne : ∀ t, t ∈ as.filter (·.raw.visible) ∨ t ∈ bs.filter (·.raw.visible) → t.raw.name ≠ e.name := by
      intro t ht
      refine hkey t (by rw [hold]; simp only [List.mem_append]; tauto) fun hat => ?_
      rcases ht with ht | ht
      · exact has t (List.mem_of_mem_filter ht) hat
      · exact hbs t (List.mem_of_mem_filter ht) hat
    have hrest : (as.filter (·.raw.visible) ++ bs.filter (·.raw.visible)).Pairwise
        fun s t => s.raw.name ≠ t.raw.name := by
      refine hkeys.sublist ?_
      rw [hold]
      exact (List.sublist_append_left _ _).append (List.Sublist.refl _)
    rw [hnew]
    split_ifs
    · obtain ⟨h₁, h₂, h₃⟩ := List.pairwise_append.1 hrest
      have hput : (s.put e).raw.name = e.name := Dirent.name_cut
      rw [List.append_assoc]
      refine List.pairwise_append.2 ⟨h₁, List.pairwise_cons.2 ⟨fun t ht => ?_, h₂⟩, fun t ht u hu => ?_⟩
      · rw [hput]
        exact (hne t (Or.inr ht)).symm
      · rcases List.mem_cons.1 hu with rfl | hu
        · rw [hput]
          exact hne t (Or.inl ht)
        · exact h₃ t ht u hu
    · rwa [List.append_nil]
  · rw [hother q hq hqp]
    exact hv.keys q hq

/-- An entry that is not in use is stored to a slot that is free. -/
theorem Volume.putInvisible (hs : s.raw.visible = false) (he : e.visible = false) :
    Volume G (d.setSlot s e) D X ∧ ∀ q ∈ D, G.children (d.setSlot s e) q = G.children d q := by
  obtain ⟨hentry, -, -⟩ := hv.toOwned.setSlot_slots hG hfit.dir hfit.split e
  obtain ⟨hold, hnew, hother⟩ := hv.setSlot_children hG hfit
  have hkids : ∀ q ∈ D, G.children (d.setSlot s e) q = G.children d q := by
    intro q hq
    by_cases hqp : q = p
    · rw [hqp, hold, hnew, hs, he]
      rfl
    · exact hother q hq hqp
  refine ⟨⟨hv.toOwned.congr hkids hv.extra (Chains.congr hv.chains hentry),
    fun q hq => hv.setSlot_tidy hG hfit hq, fun q hq => ?_, hv.zero,
    fun q hq => hv.setSlot_dotted hG hfit hq, fun q hq => ?_⟩, hkids⟩
  · rw [hkids q hq]
    exact hv.keys q hq
  · rw [hkids q hq]
    exact hv.loop q hq

/-- **The entry of a file is stored.** -/
theorem Volume.putFile (hdir : e.isDir = false) (hfirst : e.firstCluster = 0 ∨ e.firstCluster ∈ X ∨
      s.raw.visible = true ∧ s.raw.firstCluster = e.firstCluster ∧ s.raw.isDir = false)
    (hkey : ∀ t ∈ G.children d p, ¬s.At t → t.raw.name ≠ e.name) :
    Volume G (d.setSlot s e) D (X \ {e.firstCluster}) := by
  obtain ⟨hentry, -, -⟩ := hv.toOwned.setSlot_slots hG hfit.dir hfit.split e
  obtain ⟨hold, -, -⟩ := hv.setSlot_children hG hfit
  have hfc : (s.put e).raw.firstCluster = e.firstCluster := Dirent.firstCluster_cut
  have hmem : s.raw.visible = true → s ∈ G.children d p := fun hvis => by
    rw [hold, hvis]
    simp
  refine ⟨?_, fun q hq => hv.setSlot_tidy hG hfit hq, fun q hq =>
    hv.setSlot_keys hG hfit hkey hq, hv.zero, fun q hq =>
    hv.setSlot_dotted hG hfit hq, fun q hq u hu heq => ?_⟩
  · rw [← hfc]
    refine hv.toOwned.adoptFile hfit.dir (by rw [← hdir]; exact Dirent.isDir_congr Dirent.attr_cut)
      (fun q hq u hu => hv.mem_setSlot_children hG hfit hq hu) ?_ hentry
    rw [hfc]
    exact hfirst.imp_right fun h => h.imp_right fun ⟨hvis, hsf, hsd⟩ => ⟨s, hmem hvis, hsf, hsd, rfl, rfl⟩
  · rcases hv.mem_setSlot_children hG hfit hq hu with ⟨hu, -⟩ | rfl
    · exact hv.loop q hq u hu heq
    · rw [hfc] at heq
      by_contra h₀
      rcases hfirst with h | hX | ⟨hvis, hsf, hsd⟩
      · exact h₀ (heq.symm.trans h)
      · exact hv.extra _ hX ⟨by rwa [heq], Or.inl (by rwa [heq])⟩
      · rcases hv.file p hfit.dir s (hmem hvis) hsd with h | h
        · exact h₀ (by rw [← heq, ← hsf, h])
        · exact h (by rwa [hsf, heq])

/-- **The entry of a new directory is stored.** -/
theorem Volume.putDir (hdir : e.isDir = true) (hX : e.firstCluster ∈ X)
    (h₀ : e.firstCluster ≠ 0) (hkey : ∀ t ∈ G.children d p, ¬s.At t → t.raw.name ≠ e.name)
    (hempty : G.children d e.firstCluster = []) (htidy : TidyDir (G.dirSlots d e.firstCluster))
    (hdots : (G.dots d e.firstCluster).map (·.raw.name) = [padded 11 [46], padded 11 [46, 46]]) :
    Volume G (d.setSlot s e) (insert e.firstCluster D) (X \ {e.firstCluster}) := by
  obtain ⟨hentry, -, hother⟩ := hv.toOwned.setSlot_slots hG hfit.dir hfit.split e
  have hfc : (s.put e).raw.firstCluster = e.firstCluster := Dirent.firstCluster_cut
  have hnotD : e.firstCluster ∉ D := fun hD => hv.extra _ hX ⟨h₀, Or.inl hD⟩
  have hslots : G.dirSlots (d.setSlot s e) e.firstCluster = G.dirSlots d e.firstCluster :=
    hother _ (Or.inr hX) fun he => hnotD (he ▸ hfit.dir)
  refine ⟨?_, ?_, ?_, fun h32 hmem => hmem.elim (fun h => h₀ h.symm) (hv.zero h32), ?_, ?_⟩
  · have hadopt : Owned G (d.setSlot s e) _ _ := hv.toOwned.adoptDir (t := s.put e) (by rwa [hfc]) (by rwa [hfc])
      (by rw [← hdir]; exact Dirent.isDir_congr Dirent.attr_cut)
      (fun q hq u hu => hv.mem_setSlot_children hG hfit hq hu)
      (by rw [hfc, children, hslots]; exact hempty) hentry
    rwa [hfc] at hadopt
  · rintro q (rfl | hq)
    · rwa [hslots]
    · exact hv.setSlot_tidy hG hfit hq
  · rintro q (rfl | hq)
    · rw [children, hslots]
      change (G.children d e.firstCluster).Pairwise _
      rw [hempty]
      exact List.Pairwise.nil
    · exact hv.setSlot_keys hG hfit hkey hq
  · rintro q (rfl | hq)
    · rw [dots, hslots, if_neg fun he : e.firstCluster = G.rootDir => hnotD (he ▸ hv.root)]
      exact hdots
    · exact hv.setSlot_dotted hG hfit hq
  · rintro q (rfl | hq) u hu heq
    · rw [children_congr hslots, hempty] at hu
      cases hu
    · rcases hv.mem_setSlot_children hG hfit hq hu with ⟨hu, -⟩ | rfl
      · exact hv.loop q hq u hu heq
      · rw [hfc] at heq
        exact absurd (heq ▸ hq) hnotD

end SetSlot

end FatState

end LighthOS
