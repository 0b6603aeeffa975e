/-
# The long names of deleted files

`fat_unlink` marks the slot with the 8.3 name and leaves the long slots in front of it.  Nothing ties
them to their entry but their place, so an entry that `fat_create` stores in the slot that became free
gets the long name of the deleted file (`created_under_deleted_name`).

As long as the first free slot is another one, what is created has its own name only: no slot becomes
a long one, and no other free slot stands behind one (`deleted_name_dies`).
-/

import LighthOS.Fs.FatSlots

namespace LighthOS

/-- **Each run of long slots stands in front of its entry**: behind a long slot there is another one,
or an entry in use. -/
structure RunsOwned (slots : List Slot) : Prop where
  next : slots.IsChain fun y z => y.raw.isLong = true → z.raw.isLong = true ∨ z.raw.listed = true
  last : ∀ y ∈ slots.getLast?, y.raw.isLong = false

/-- Calls of `fat_create` in a directory, from one state on; a call has a bound for its loops. -/
def createSystem (G : FatState) (p : ℕ) (m₁ : FatMem Disk) : System (FatMem Disk) (ℕ × Bytes × VfsType) :=
  .ofFun (fun m => m = m₁) fun m (fuel, name, type) => (fatCreate Disk.dev G fuel p name type m).map Prod.snd

/-- **The long name of an entry is dead**: no entry of the directory that was not there in `m₁` is
listed under it or found under it. -/
def NameDead (G : FatState) (p : ℕ) (x : Entry) (m₁ m : FatMem Disk) : Prop :=
  ∀ longName ∈ x.lfn.name?, ∀ t ∈ G.live m p, t.toSlot ∉ G.dirSlots m₁.dev p →
    (readdirEntry t).1 ≠ longName.take (vfsMaxName - 1) ∧ G.lookup m p longName ≠ some t

/-- A key that does not read as a long name. -/
def OtherName (longName key : Bytes) : Prop :=
  (fatNameToDot key).take (vfsMaxName - 1) ≠ longName.take (vfsMaxName - 1) ∧ key ≠ fatNameFromDot longName

/-- **A call of `fat_create` that spares the slot of an entry with a long name**: if it creates an
entry, the first free slot is another one, and the 8.3 name of the new entry is not the long name. -/
def SparesSlot (G : FatState) (p : ℕ) (x : Entry) (m : FatMem Disk) (call : ℕ × Bytes × VfsType) : Prop :=
  ∀ longName ∈ x.lfn.name?, G.lookup m p call.2.1 = none →
    (∀ y, G.freeSlot m p = some y → ¬x.toSlot.At y.toSlot) ∧ OtherName longName (fatNameFromDot call.2.1)

/-! ### Slots behind long slots -/

/-- A slot in the middle of a list is replaced. -/
theorem isChain_replace {α : Type*} {R : α → α → Prop} {pre post : List α} {a b : α}
    (h : (pre ++ a :: post).IsChain R) (hbefore : ∀ y ∈ pre.getLast?, R y b) (hbehind : ∀ z ∈ post.head?, R b z) :
    (pre ++ b :: post).IsChain R := by
  obtain ⟨hpre, hpost, -⟩ := List.isChain_append.1 h
  refine List.isChain_append.2 ⟨hpre, List.isChain_cons.2 ⟨hbehind, (List.isChain_cons.1 hpost).2⟩, ?_⟩
  intro y hy z hz
  rw [List.head?_cons, Option.mem_some_iff] at hz
  rw [← hz]
  exact hbefore y hy

/-- The slots between calls of `fat_create` that spare `x`, from `slots₁` on: a slot behind a long one is
a long one, or one that was there before and is in use, or the one at `x`; and new entries have names that
meet `ok`. -/
structure Spared (slots₁ : List Slot) (x : Slot) (ok : Bytes → Prop) (slots : List Slot) : Prop where
  next : slots.IsChain fun y z => y.raw.isLong = true →
    z.raw.isLong = true ∨ z ∈ slots₁ ∧ (z.isFree = false ∨ x.At z)
  last : ∀ y ∈ slots.getLast?, y.raw.isLong = false
  names : ∀ t ∈ slots, t ∉ slots₁ → t.isFree = false → t.raw.isLong = false → ok t.raw.name

theorem Slot.isFree_of_listed {s : Slot} (h : s.raw.listed = true) : s.isFree = false := by
  rw [Dirent.listed, Bool.and_eq_true, Bool.not_eq_true', Bool.not_eq_true'] at h
  rw [Slot.isFree, h.1, h.2, Bool.or_self, Bool.and_false]

/-- An entry becomes free. -/
theorem RunsOwned.spared {pre post : List Slot} {x : Slot} (h : RunsOwned (pre ++ x :: post)) {e : Dirent}
    (hlong : e.isLong = false) (ok : Bytes → Prop) :
    Spared (pre ++ x.put e :: post) x ok (pre ++ x.put e :: post) := by
  have hput : (x.put e).raw.isLong = false := (Dirent.isLong_congr Dirent.attr_cut).trans hlong
  have hchain : (pre ++ x :: post).IsChain fun y z => y.raw.isLong = true →
      z.raw.isLong = true ∨ z.isFree = false ∨ x.At z := h.next.imp fun y z hyz hy =>
    (hyz hy).imp id fun hz => Or.inl (Slot.isFree_of_listed hz)
  have hput' := isChain_replace (b := x.put e) hchain (fun y _ _ => Or.inr (Or.inr ⟨rfl, rfl⟩))
    fun z _ hy => absurd (hput.symm.trans hy) Bool.false_ne_true
  refine ⟨hput'.imp_of_mem_imp fun y z _ hz hyz hy => (hyz hy).imp id fun h => ⟨hz, h⟩, fun y hy => ?_,
    fun t ht hnot => absurd ht hnot⟩
  -- the last slot is the old one, or the one that became free
  rw [List.getLast?_append, List.getLast?_cons] at hy
  have hlast := h.last
  rw [List.getLast?_append, List.getLast?_cons] at hlast
  cases hpost : post.getLast? with
  | none =>
    rw [hpost] at hy
    obtain rfl := Option.some.inj hy
    exact hput
  | some z =>
    rw [hpost] at hy hlast
    obtain rfl := Option.some.inj hy
    exact hlast z rfl

/-- Free slots behind the directory. -/
theorem Spared.append {slots₁ slots tail : List Slot} {x : Slot} {ok : Bytes → Prop} (h : Spared slots₁ x ok slots)
    (htail : ∀ t ∈ tail, t.raw = fun _ => 0) : Spared slots₁ x ok (slots ++ tail) := by
  have hlong : ∀ t ∈ tail, t.raw.isLong = false := fun t ht => by
    rw [htail t ht]
    rfl
  refine ⟨List.isChain_append.2 ⟨h.next, ?_, fun y hy z _ hyl => ?_⟩, fun y hy => ?_, fun t ht hnot hfree hl => ?_⟩
  · refine List.Pairwise.isChain (List.pairwise_of_forall_mem_list fun y hy z _ hyl => ?_)
    exact absurd ((hlong y hy).symm.trans hyl) Bool.false_ne_true
  · exact absurd ((h.last y hy).symm.trans hyl) Bool.false_ne_true
  · rw [List.getLast?_append] at hy
    cases htl : tail.getLast? with
    | none =>
      rw [htl] at hy
      exact h.last y hy
    | some z =>
      rw [htl] at hy
      obtain rfl := Option.some.inj hy
      exact hlong z (List.mem_of_getLast? htl)
  · rcases List.mem_append.1 ht with ht | ht
    · exact h.names t ht hnot hfree hl
    · have := FatState.Slot.isFree_zero (htail t ht)
      rw [hfree] at this
      cases this

/-- **An entry is stored** in a free slot that is not the one at `x`. -/
theorem Spared.store {slots₁ slots slots' : List Slot} {x s : Slot} {ok : Bytes → Prop} (h : Spared slots₁ x ok slots)
    {e : Dirent} (hs : FatState.StoresAt slots slots' s e) (hlong : e.isLong = false) (hok : ok e.name)
    (hx : s ∈ slots → ¬x.At s) : Spared slots₁ x ok slots' := by
  obtain ⟨tail, pre, post, htail, hgrown, hsplit, hpre, hfree, rfl⟩ := hs
  have hput : (s.put e).raw.isLong = false := (Dirent.isLong_congr Dirent.attr_cut).trans hlong
  have hS := h.append htail
  rw [hsplit] at hS
  have hslong : s.raw.isLong = false := by
    rw [Slot.isFree, Bool.and_eq_true, Bool.not_eq_true'] at hfree
    exact hfree.1
  -- a free slot behind a long one is the one at `x`
  have hfront : ∀ y ∈ pre.getLast?, y.raw.isLong = false := by
    intro y hy
    by_contra hyl
    rw [Bool.not_eq_false] at hyl
    obtain ⟨-, -, hrel⟩ := List.isChain_append.1 hS.next
    rcases hrel y hy s rfl hyl with hsl | ⟨hold, hnot | hat⟩
    · exact absurd (hslong.symm.trans hsl) Bool.false_ne_true
    · exact absurd (hnot.symm.trans hfree) Bool.false_ne_true
    · rcases List.append_eq_append_iff.1 hsplit with ⟨front, rfl, htl⟩ | ⟨back, hslots, hback⟩
      · -- a slot of a new cluster has no long slot in front of it
        cases front with
        | nil =>
          rw [List.append_nil] at hy
          exact absurd ((h.last y hy).symm.trans hyl) Bool.false_ne_true
        | cons t front =>
          have hzero := FatState.Slot.isFree_zero (htail t (by rw [htl]; simp))
          rw [hpre t (by simp)] at hzero
          cases hzero
      · cases back with
        | nil =>
          rw [List.append_nil] at hslots
          rw [← hslots] at hy
          exact absurd ((h.last y hy).symm.trans hyl) Bool.false_ne_true
        | cons t back =>
          obtain ⟨rfl, -⟩ := List.cons.inj hback
          exact hx (by rw [hslots]; simp) hat
  refine ⟨isChain_replace hS.next (fun y hy hyl => absurd ((hfront y hy).symm.trans hyl) Bool.false_ne_true)
    fun z _ hyl => absurd (hput.symm.trans hyl) Bool.false_ne_true, fun y hy => ?_, fun t ht hnot hf hl => ?_⟩
  · rw [List.getLast?_append, List.getLast?_cons] at hy
    have hlast := hS.last
    rw [List.getLast?_append, List.getLast?_cons] at hlast
    cases hpost : post.getLast? with
    | none =>
      rw [hpost] at hy
      obtain rfl := Option.some.inj hy
      exact hput
    | some z =>
      rw [hpost] at hy hlast
      obtain rfl := Option.some.inj hy
      exact hlast z rfl
  · rcases List.mem_append.1 ht with ht | ht
    · exact hS.names t (List.mem_append_left _ ht) hnot hf hl
    · rcases List.mem_cons.1 ht with rfl | ht
      · rw [show (s.put e).raw.name = e.name from Dirent.name_cut]
        exact hok
      · exact hS.names t (List.mem_append_right _ (List.mem_cons_of_mem _ ht)) hnot hf hl

/-! ### Entries that are not behind long slots -/

theorem lfnTrace_inactive (l : Lfn) {slots : List Dirent} (h : ∀ e ∈ slots.getLast?, e.isLong = false) :
    (lfnTrace l slots).lfn.active = false := by
  rcases List.eq_nil_or_concat slots with rfl | ⟨slots, e, rfl⟩
  · rfl
  · rw [List.concat_eq_append] at h ⊢
    rw [lfnTrace_concat, LfnTrace.pass_other _ (h e (by simp))]
    rfl

/-- What is listed and found where the slot is spared. -/
theorem Spared.not_under {G : FatState} {m m₁ : FatMem Disk} {p : ℕ} {longName : Bytes} {x : Slot}
    (h : Spared (G.dirSlots m₁.dev p) x (OtherName longName) (G.dirSlots m.dev p)) {t : Entry} (ht : t ∈ G.live m p)
    (hnew : t.toSlot ∉ G.dirSlots m₁.dev p) :
    (readdirEntry t).1 ≠ longName.take (vfsMaxName - 1) ∧ G.lookup m p longName ≠ some t := by
  have hmem := FatState.mem_entries_of_live ht
  obtain ⟨pre, post, hsplit, hlfn⟩ := FatState.entries_lfn_trace hmem
  have hlong : t.raw.isLong = false := not_long_of_mem_entriesOf hmem
  have hlisted : t.raw.listed = true := by
    unfold FatState.live liveOf at ht
    obtain ⟨hend, hdel⟩ := List.mem_filter.1 ht
    have hend := List.mem_takeWhile_imp hend
    rw [Dirent.listed, hend, hdel]
    rfl
  have hfree : t.toSlot.isFree = false := Slot.isFree_of_listed hlisted
  -- the slot in front of it is not a long one
  have hinactive : t.lfn.active = false := by
    rw [hlfn]
    refine lfnTrace_inactive m.lfn fun e he => ?_
    rw [List.getLast?_map] at he
    obtain ⟨y, hy, rfl⟩ := Option.map_eq_some_iff.1 he
    by_contra hyl
    rw [Bool.not_eq_false] at hyl
    have hnext := h.next
    rw [hsplit] at hnext
    obtain ⟨-, -, hrel⟩ := List.isChain_append.1 hnext
    rcases hrel y hy t.toSlot rfl hyl with htl | ⟨hold, -⟩
    · exact absurd (hlong.symm.trans htl) Bool.false_ne_true
    · exact hnew hold
  have hname : t.lfn.name? = none := by
    rw [Lfn.name?, if_neg]
    rw [hinactive]
    simp
  obtain ⟨hlist, hkey⟩ := h.names t.toSlot (by rw [hsplit]; simp) hnew hfree hlong
  refine ⟨by rw [readdirEntry, hname]; exact hlist, fun hfound => ?_⟩
  have hmatch := List.find?_some hfound
  rw [Bool.and_eq_true, lookupMatch, longMatch, hname, Option.any_none, Bool.or_false, beq_iff_eq] at hmatch
  exact hkey hmatch.2

/-- **A deleted file's long name dies with it**, if no later call of `fat_create` takes its slot.  On a
volume with consistent geometry, in a directory in which each run of long slots stands in front of its
entry, an entry is deleted whose clusters are not those of the directory; then calls of `fat_create`
follow, each of which spares the slot of the deleted entry.  In every state that they reach, no new
entry has the long name. -/
theorem deleted_name_dies (G : FatState) (hG : FatState.GeoOk G) (m : FatMem Disk) (p : ℕ)
    (hp : G.SoundDir m.dev p) (hruns : RunsOwned (G.dirSlots m.dev p)) (name : Bytes) (x : Entry)
    (hx : G.keyed m p name = some x) (hfile : G.FileApart m.dev p x.raw) (fuel : ℕ) (r : ℤ) (m₁ : FatMem Disk)
    (hunlink : fatUnlink Disk.dev G fuel p name m = some (r, m₁)) (m' : FatMem Disk)
    (hreach : ((createSystem G p m₁).restrict (SparesSlot G p x)).Reaches m') : NameDead G p x m₁ m' := by
  intro longName hlong t ht hnew
  obtain ⟨hsound, pre, post, hslots, hslots₁⟩ := FatState.fatUnlink_slots hG hp hx hfile hunlink
  have hxlong : x.raw.isLong = false :=
    not_long_of_mem_entriesOf (FatState.mem_entries_of_live (List.mem_of_find?_eq_some hx))
  have hinv : G.SoundDir m'.dev p ∧
      Spared (G.dirSlots m₁.dev p) x.toSlot (OtherName longName) (G.dirSlots m'.dev p) := by
    refine hreach.invariant (I := fun m' => G.SoundDir m'.dev p ∧
      Spared (G.dirSlots m₁.dev p) x.toSlot (OtherName longName) (G.dirSlots m'.dev p))
      (fun m₀ hm₀ => ?_) fun m₂ call m₃ ⟨hs₂, hsp⟩ ⟨hspare, hstep⟩ => ?_
    · obtain rfl : m₀ = m₁ := hm₀
      rw [hslots] at hruns
      have hattr : Dirent.attr (Function.update x.raw 0 0xE5) = x.raw.attr := Function.update_of_ne (by decide) _ _
      refine ⟨hsound, ?_⟩
      rw [hslots₁]
      exact hruns.spared ((Dirent.isLong_congr hattr).trans hxlong) _
    · obtain ⟨fuel, n, type⟩ := call
      obtain ⟨⟨r, m₄⟩, hcreate, rfl⟩ := Option.map_eq_some_iff.1 hstep
      obtain ⟨hs₃, hres⟩ := FatState.fatCreate_slots hG hs₂ hcreate
      refine ⟨hs₃, ?_⟩
      rcases hres with ⟨-, hsame⟩ | ⟨-, habsent, s, first, hstore⟩
      · rw [hsame]
        exact hsp
      · obtain ⟨hother, hok⟩ := hspare longName hlong habsent
        have hplain := FatState.plain_attrOf (fatNameFromDot n) type first
        rw [Dirent.plain, Bool.and_eq_true, Bool.not_eq_true'] at hplain
        refine hsp.store hstore hplain.1 (by rwa [name_newDirent]) fun hmem => ?_
        have hfirst := FatState.freeSlot_toSlot (G := G) m₂ p
        rw [hstore.find? hmem] at hfirst
        obtain ⟨y, hy, rfl⟩ := Option.map_eq_some_iff.1 hfirst
        exact hother y hy
  exact hinv.2.not_under ht hnew

/-! ### A file with a long name -/

/-- The slot of the long name "notes.text". -/
def notesLong : Dirent := fun i =>
  match i with
  | 0 => 0x41 | 1 => 110 | 3 => 111 | 5 => 116 | 7 => 101 | 9 => 115 | 11 => 0x0F | 13 => 0xF7 | 14 => 46
  | 16 => 116 | 18 => 101 | 20 => 120 | 22 => 116 | 28 => 0xFF | 29 => 0xFF | 30 => 0xFF | 31 => 0xFF
  | _ => 0

/-- Its entry, with the 8.3 name "NOTES~1.TEX". -/
def notesEntry : Dirent := newDirent [78, 79, 84, 69, 83, 126, 49, 32, 84, 69, 88] 0x20 0

/-- The small volume with the file in the first two slots of its root directory. -/
def notesMem : FatMem Disk :=
  freshMem (smallDisk zeroSector ((zeroSector.put 0 32 notesLong).put 32 32 notesEntry))

/-- The same with a deleted entry in front of the file. -/
def sparedMem : FatMem Disk :=
  freshMem (smallDisk zeroSector (((zeroSector.put 0 32 (newDirent (padded 11 [0xE5]) 0 0)).put 32 32 notesLong).put
    64 32 notesEntry))

/-- "notes~1.tex". -/
def notesShort : Bytes := [110, 111, 116, 101, 115, 126, 49, 46, 116, 101, 120]

/-- "notes.text". -/
def notesName : Bytes := [110, 111, 116, 101, 115, 46, 116, 101, 120, 116]

theorem not_isChain_zero {G : FatState} {d : Disk} {l : List ℕ} (h : G.IsChain d 0 l) : False := by
  have := (FatState.IsChain.valid h h.head_mem).1
  omega

/-- The hypotheses of `deleted_name_dies` are satisfiable: the file is deleted, and a file `b` is created
in the slot in front of it. -/
theorem deleted_name_dies_spared : ∃ x m₁ m', smallFat.keyed sparedMem 0 notesShort = some x ∧
    x.lfn.name? = some notesName ∧ (∃ t ∈ smallFat.live m' 0, t.toSlot ∉ smallFat.dirSlots m₁.dev 0) ∧
    NameDead smallFat 0 x m₁ m' := by
  have hrun : (smallFat.keyed sparedMem 0 notesShort).any (fun x => x.lfn.name? == some notesName &&
      (fatUnlink Disk.dev smallFat 100 0 notesShort sparedMem).any fun r =>
        (smallFat.freeSlot r.2 0).all (fun y => !(y.lba == x.lba && y.off == x.off)) &&
        (fatCreate Disk.dev smallFat 100 0 [98] .file r.2).any fun r' =>
          (smallFat.live r'.2 0).any fun t => (smallFat.dirSlots r.2.dev 0).all fun u => u.raw 0 != t.raw 0) = true := by
    decide +kernel
  obtain ⟨x, hx, hrun⟩ := (Option.any_eq_true _ _).1 hrun
  rw [Bool.and_eq_true, beq_iff_eq] at hrun
  obtain ⟨hlong, hrun⟩ := hrun
  obtain ⟨⟨r, m₁⟩, hunlink, hrun⟩ := (Option.any_eq_true _ _).1 hrun
  rw [Bool.and_eq_true] at hrun
  obtain ⟨hfree, hrun⟩ := hrun
  obtain ⟨⟨r', m'⟩, hcreate, hnew⟩ := (Option.any_eq_true _ _).1 hrun
  obtain ⟨t, ht, hnot⟩ := List.any_eq_true.1 hnew
  have hfresh : t.toSlot ∉ smallFat.dirSlots m₁.dev 0 := fun hmem => by
    simpa using List.all_eq_true.1 hnot _ hmem
  have hspare : SparesSlot smallFat 0 x m₁ (100, [98], .file) := by
    intro longName hname _
    rw [hlong, Option.mem_some_iff] at hname
    rw [← hname]
    refine ⟨fun y hy hat => ?_, by decide +kernel, by decide +kernel⟩
    rw [hy] at hfree
    simp [hat.1, hat.2] at hfree
  have hreach : ((createSystem smallFat 0 m₁).restrict (SparesSlot smallFat 0 x)).Reaches m' :=
    .step (.init rfl) ⟨hspare, by
      show (fatCreate Disk.dev smallFat 100 0 [98] .file m₁).map Prod.snd = some m'
      rw [hcreate, Option.map_some]⟩
  refine ⟨x, m₁, m', hx, hlong, ⟨t, ht, hfresh⟩, deleted_name_dies smallFat geoOk_smallFat sparedMem 0 (Or.inl rfl)
    ⟨?_, ?_⟩ notesShort x hx (fun l hl => absurd hl not_isChain_zero) 100 r m₁ hunlink m' hreach⟩
  · decide +kernel
  · decide +kernel

/-- **A new file gets the name of a deleted one.**  The file is deleted and a file `b` is created: it is
listed as "notes.text" and found under that name. -/
theorem created_under_deleted_name : RunsOwned (smallFat.dirSlots notesMem.dev 0) ∧ ∃ x m₁ m',
    smallFat.keyed notesMem 0 notesShort = some x ∧ x.lfn.name? = some notesName ∧
    fatUnlink Disk.dev smallFat 100 0 notesShort notesMem = some (0, m₁) ∧
    fatCreate Disk.dev smallFat 100 0 [98] .file m₁ = some (0, m') ∧ ¬NameDead smallFat 0 x m₁ m' ∧
    (fatReaddir Disk.dev smallFat 0 0 m').map Prod.fst = some (some (notesName, .file)) := by
  have hrun : (smallFat.keyed notesMem 0 notesShort).any (fun x => x.lfn.name? == some notesName &&
      (fatUnlink Disk.dev smallFat 100 0 notesShort notesMem).any fun r => r.1 == 0 &&
        (fatCreate Disk.dev smallFat 100 0 [98] .file r.2).any fun r' => r'.1 == 0 &&
          (smallFat.live r'.2 0).any (fun t => (readdirEntry t).1 == notesName.take (vfsMaxName - 1) &&
            (smallFat.dirSlots r.2.dev 0).all fun u => u.raw 0 != t.raw 0) &&
          (fatReaddir Disk.dev smallFat 0 0 r'.2).map Prod.fst == some (some (notesName, .file))) = true := by
    decide +kernel
  refine ⟨⟨by decide +kernel, by decide +kernel⟩, ?_⟩
  obtain ⟨x, hx, hrun⟩ := (Option.any_eq_true _ _).1 hrun
  rw [Bool.and_eq_true, beq_iff_eq] at hrun
  obtain ⟨hlong, hrun⟩ := hrun
  obtain ⟨⟨r, m₁⟩, hunlink, hrun⟩ := (Option.any_eq_true _ _).1 hrun
  rw [Bool.and_eq_true, beq_iff_eq] at hrun
  obtain ⟨rfl, hrun⟩ := hrun
  obtain ⟨⟨r', m'⟩, hcreate, hrun⟩ := (Option.any_eq_true _ _).1 hrun
  rw [Bool.and_eq_true, Bool.and_eq_true, beq_iff_eq, beq_iff_eq] at hrun
  obtain ⟨⟨rfl, hnew⟩, hread⟩ := hrun
  obtain ⟨t, ht, hnew⟩ := List.any_eq_true.1 hnew
  rw [Bool.and_eq_true, beq_iff_eq] at hnew
  refine ⟨x, m₁, m', hx, hlong, hunlink, hcreate, fun hdead => ?_, hread⟩
  refine (hdead notesName hlong t ht fun hmem => ?_).1 hnew.1
  simpa using List.all_eq_true.1 hnew.2 _ hmem

end LighthOS
