/-
# A FAT directory as a finite map

The purpose of a directory: a finite map from 8.3 names to entries (`FatState.entryOf`).
In every state that a run from an empty volume reaches, `fat_finddir` says whether the key
of a name is present, where there is memory for its node (`finddir_without_memory`),
`fat_create` adds a key that was absent and `fat_unlink` removes one that was present, both
without a change to any other key or directory, and `fat_readdir` enumerates the entries
(`DirRefines`, `dirRefines_of_reaches`).

A directory of the driver is a list of slots.  Its keys are different because
`fat_create` looks for the key first (`FatState.Volume.keys`); a new entry goes between
two parts of the list, so the map is updated at one key (`entryOf_insert`,
`entryOf_remove`).
-/

import LighthOS.Fs.FatOwnership
import LighthOS.Fs.FatMount

namespace LighthOS

/-! ### `fat_readdir` -/

/-- What `cb_readdir` stores for an entry. -/
def readdirEntry (e : Entry) : Bytes × VfsType :=
  ((e.lfn.name?.getD (fatNameToDot e.raw.name)).take (vfsMaxName - 1), e.raw.type)

theorem liveOf_cons (e : Entry) (es : List Entry) : liveOf (e :: es) =
    if e.raw.isEnd then [] else if e.raw.isDeleted then liveOf es else e :: liveOf es := by
  unfold liveOf
  rw [List.takeWhile_cons]
  cases e.raw.isEnd with
  | true => rfl
  | false =>
      cases hdel : e.raw.isDeleted with
      | true => simp [hdel]
      | false => simp [hdel]

/-- **The walk of `fat_readdir`** counts the live entries that are no volume labels. -/
theorem run_cbReaddir (es : List Entry) (d : Disk) {target seen : ℕ} (rc : ℤ) (hle : seen ≤ target)
    (hlt : target < 2 ^ 32) : ∃ going rc' seen',
    Loop.run (entryBody cbReaddir) es (rc, ⟨target, seen, none⟩, d) = some (going, rc', ⟨target, seen',
      (((liveOf es).filter (!·.raw.isVolumeId))[target - seen]?).map readdirEntry⟩, d) := by
  induction es generalizing seen rc with
  | nil => exact ⟨true, rc, seen, rfl⟩
  | cons e es ih =>
      rw [Loop.run, liveOf_cons, entryBody, cbReaddir]
      cases hend : e.raw.isEnd with
      | true => exact ⟨false, -1, seen, rfl⟩
      | false =>
          cases hdel : e.raw.isDeleted with
          | true => exact ih 0 hle
          | false =>
              cases hvol : e.raw.isVolumeId with
              | true =>
                  obtain ⟨going, rc', seen', h⟩ := ih 0 hle
                  exact ⟨going, rc', seen', by simpa [hvol] using h⟩
              | false =>
                  by_cases heq : seen = target
                  · refine ⟨false, 1, seen, ?_⟩
                    simp [heq, hvol, readdirEntry]
                  · obtain ⟨going, rc', seen', h⟩ := ih 0 (show seen + 1 ≤ target by omega)
                    have hu : u32 (seen + 1) = seen + 1 := u32_of_lt (by omega)
                    have hidx : target - seen = target - (seen + 1) + 1 := by omega
                    refine ⟨going, rc', seen', ?_⟩
                    simp only [heq, if_false, hu, Bool.false_eq_true, Option.map_some, beq_self_eq_true]
                    rw [h]
                    simp [hvol, hidx]

theorem quiet_cbReaddir : Quiet (cbReaddir : DirWalkFn Disk ReaddirArg) := by
  intro e lba off a m a' m' h
  unfold cbReaddir at h
  split_ifs at h <;> cases h <;> rfl

/-- **`fat_readdir`** gives the live entries that are no volume labels, by their number. -/
theorem fatReaddir_eq {G : FatState} (p : ℕ) {i : ℕ} (hi : i < 2 ^ 32) (m : FatMem Disk) : ∃ m', m'.dev = m.dev ∧
    fatReaddir Disk.dev G p i m =
      some ((((G.live m p).filter (!·.raw.isVolumeId))[i]?).map readdirEntry, m') := by
  obtain ⟨going, rc, seen, hrun⟩ := run_cbReaddir (G.entries m p) m.dev 0 (Nat.zero_le i) hi
  have hwalk := dirWalk_entries (G := G) quiet_cbReaddir p ⟨i, 0, none⟩ m
  rw [hrun, Option.map_some] at hwalk
  obtain ⟨⟨rc', a, m'⟩, hwalk', heq⟩ := Option.map_eq_some_iff.1 hwalk
  obtain ⟨-, heq⟩ := Prod.mk.inj heq
  obtain ⟨ha, hd⟩ := Prod.mk.inj heq
  refine ⟨m', hd, ?_⟩
  simp only at ha
  rw [fatReaddir, hwalk', ha]
  rfl

/-! ### Directories as maps -/

namespace FatState

/-- **The entry of a key**, in a directory. -/
def entryOf (G : FatState) (d : Disk) (p : ℕ) (key : Bytes) : Option Dirent :=
  ((G.children d p).find? fun s => s.raw.name == key).map (·.raw)

variable {G : FatState} {d d' : Disk} {D X : Set ℕ} {p q : ℕ} {m m' : FatMem Disk} {name key : Bytes} {s t : Slot}
  {ca cb : List Slot}

theorem entryOf_congr (h : G.children d' p = G.children d p) : G.entryOf d' p = G.entryOf d p := by
  funext key
  rw [entryOf, entryOf, h]

theorem entryOf_eq_none : G.entryOf d p key = none ↔ ∀ s ∈ G.children d p, s.raw.name ≠ key := by
  rw [entryOf, Option.map_eq_none_iff, List.find?_eq_none]
  simp only [beq_iff_eq, ne_eq]

theorem entryOf_isSome_iff : (G.entryOf m.dev p (fatNameFromDot name)).isSome ↔ (G.keyed m p name).isSome := by
  rw [keyed_isSome, entryOf, Option.isSome_map, List.find?_isSome]
  simp only [beq_iff_eq]

/-- The map, where the keys are different. -/
theorem entryOf_eq_some (hkeys : (G.children d p).Pairwise fun s t => s.raw.name ≠ t.raw.name)
    (hs : s ∈ G.children d p) : G.entryOf d p s.raw.name = some s.raw := by
  have hfind : (G.children d p).find? (fun t => t.raw.name == s.raw.name) = some s := by
    obtain ⟨as, bs, hsplit⟩ := List.append_of_mem hs
    rw [hsplit] at hkeys ⊢
    obtain ⟨-, -, hcross⟩ := List.pairwise_append.1 hkeys
    refine List.find?_eq_some_iff_append.2 ⟨beq_self_eq_true _, as, bs, rfl, fun t ht => ?_⟩
    rw [Bool.not_eq_true']
    exact beq_eq_false_iff_ne.2 (hcross t ht s List.mem_cons_self)
  rw [entryOf, hfind, Option.map_some]

/-- An entry more. -/
theorem entryOf_insert (hold : G.children d p = ca ++ cb) (hnew : G.children d' p = ca ++ t :: cb)
    (habsent : ∀ s ∈ G.children d p, s.raw.name ≠ t.raw.name) :
    G.entryOf d' p = Function.update (G.entryOf d p) t.raw.name (some t.raw) := by
  funext key
  rw [hold] at habsent
  by_cases hkey : key = t.raw.name
  · subst hkey
    have hca : ca.find? (fun s => s.raw.name == t.raw.name) = none := List.find?_eq_none.2 fun s hs => by
      simpa using habsent s (List.mem_append_left _ hs)
    rw [Function.update_self, entryOf, hnew, List.find?_append, hca, Option.none_or, List.find?_cons,
      beq_self_eq_true]
    rfl
  · rw [Function.update_of_ne hkey, entryOf, entryOf, hold, hnew, List.find?_append, List.find?_append,
      List.find?_cons, beq_eq_false_iff_ne.2 (Ne.symm hkey)]

/-- An entry less. -/
theorem entryOf_remove (hold : G.children d p = ca ++ t :: cb) (hnew : G.children d' p = ca ++ cb)
    (hkeys : (G.children d p).Pairwise fun s t => s.raw.name ≠ t.raw.name) :
    G.entryOf d' p = Function.update (G.entryOf d p) t.raw.name none := by
  rw [hold] at hkeys
  obtain ⟨-, htail, hcross⟩ := List.pairwise_append.1 hkeys
  obtain ⟨hcb, -⟩ := List.pairwise_cons.1 htail
  have habsent : ∀ s ∈ G.children d' p, s.raw.name ≠ t.raw.name := by
    intro s hs
    rw [hnew] at hs
    rcases List.mem_append.1 hs with hs | hs
    · exact hcross s hs t List.mem_cons_self
    · exact (hcb s hs).symm
  have hback := entryOf_insert hnew hold habsent
  rw [hback, Function.update_idem]
  funext key
  by_cases hkey : key = t.raw.name
  · subst hkey
    rw [Function.update_self]
    exact entryOf_eq_none.2 habsent
  · rw [Function.update_of_ne hkey]

/-- A name that does not start with the mark of deleted entries has no such key. -/
theorem head_ne_deleted (h : name.head? ≠ some 0xE5) : (fatNameFromDot name).getD 0 0 ≠ 0xE5 := by
  have hbytes : ∀ n : Fin 256, UInt8.ofNat n ≠ 0xE5 → toUpper (UInt8.ofNat n) ≠ 0xE5 := by decide +kernel
  have hupper : ∀ c : UInt8, c ≠ 0xE5 → toUpper c ≠ 0xE5 := by
    intro c hc
    have := hbytes ⟨c.toNat, c.toNat_lt⟩
    simp only [UInt8.ofNat_toNat] at this
    exact this hc
  unfold fatNameFromDot
  simp only
  cases name with
  | nil => simp [padded]
  | cons c name =>
      rw [List.head?_cons, ne_eq, Option.some.injEq] at h
      rw [List.take_succ_cons, List.takeWhile_cons]
      by_cases hc : decide (c ≠ 0 ∧ c ≠ 46) = true
      · rw [if_pos hc]
        simpa [padded] using hupper c h
      · rw [if_neg hc]
        simp [padded]

theorem Volume.growthEnds (hv : Volume G d D X) (hp : p ∈ D) : GrowthEnds G d p := by
  rcases hv.toOwned.dir_chain hp with rfl | ⟨l, hl⟩
  · refine Or.inl ?_
    cases h32 : G.isFat32 with
    | true => exact absurd hp (hv.zero h32)
    | false =>
        rw [isRootDir, h32]
        rfl
  · exact Or.inr (Or.inr hl.chainEnds)

/-- `fat_create` returns on a volume. -/
theorem Volume.createEnds (hG : GeoOk G) (hv : Volume G m.dev D X) (hp : p ∈ D) (name : Bytes) (type : VfsType) :
    CreateEnds G m p name type := by
  cases type with
  | file => exact Or.inr (hv.growthEnds hp)
  | dir =>
      refine Or.inr fun c hc => ?_
      obtain ⟨h₂, hle, hzero⟩ := freeFrom_eq_some hc
      obtain ⟨hvol, -⟩ := hv.claimDir hG ⟨h₂, hle⟩ hzero (p := p) rfl
      exact hvol.growthEnds hp

end FatState

open FatState

/-- The directories of a state: those of the nodes that were not removed, and those that are reachable. -/
def IsDir (G : FatState) (st : VolState) (q : ℕ) : Prop := q ∈ st.held ∨ ReachDir G st.mem.dev q

/-- **What a directory is for.**  The operations on the directory `p` are those of a finite map
from 8.3 names to entries, and leave all other directories alone. -/
structure DirRefines (G : FatState) (st : VolState) (p : ℕ) : Prop where
  /-- A lookup succeeds where the key is present and there is memory for a node. -/
  finddir : ∀ room name, ∃ node m', fatFinddir Disk.dev G room p name st.mem = some (node, m') ∧
    (node.isSome ↔ room.isSome ∧ (G.entryOf st.mem.dev p (fatNameFromDot name)).isSome)
  /-- A new key is added with an empty entry, or nothing is changed. -/
  create : ∀ fuel name type, name.head? ≠ some 0xE5 → G.lastCluster + 2 ≤ fuel →
    ∃ r m', fatCreate Disk.dev G fuel p name type st.mem = some (r, m') ∧
      (∀ q, IsDir G st q → q ≠ p → G.entryOf m'.dev q = G.entryOf st.mem.dev q) ∧
      (r = 0 ∧ G.entryOf st.mem.dev p (fatNameFromDot name) = none ∧ (∃ e : Dirent, e.size = 0 ∧ e.type = type ∧
          G.entryOf m'.dev p = Function.update (G.entryOf st.mem.dev p) (fatNameFromDot name) (some e)) ∨
        r = -1 ∧ G.entryOf m'.dev p = G.entryOf st.mem.dev p)
  /-- A key is removed exactly where it is present; the directory that it names is none any more. -/
  unlink : ∀ fuel name, G.lastCluster + 2 ≤ fuel → ∃ r m', fatUnlink Disk.dev G fuel p name st.mem = some (r, m') ∧
    (r = 0 ↔ (G.entryOf st.mem.dev p (fatNameFromDot name)).isSome) ∧
    G.entryOf m'.dev p = Function.update (G.entryOf st.mem.dev p) (fatNameFromDot name) none ∧
    ∀ q, IsDir G st q → q ≠ p → (∀ e, G.entryOf st.mem.dev p (fatNameFromDot name) = some e → e.isDir = true →
      q ≠ e.firstCluster) → G.entryOf m'.dev q = G.entryOf st.mem.dev q
  /-- The entries are enumerated once each, with `.` and `..` in a subdirectory. -/
  readdir : ∃ listing : List Dirent, (∀ i < 2 ^ 32, ∃ m', fatReaddir Disk.dev G p i st.mem =
      some ((listing[i]?).map fun e => ((fatNameToDot e.name).take (vfsMaxName - 1), e.type), m')) ∧
    ((listing.filter (!·.isDot)).map (·.name)).Nodup ∧
    (∀ key e, G.entryOf st.mem.dev p key = some e ↔ e ∈ listing.filter (!·.isDot) ∧ e.name = key) ∧
    (listing.filter (·.isDot)).map (·.name) =
      if p = G.rootDir then [] else [padded 11 [46], padded 11 [46, 46]]

section

variable {G : FatState} {st : VolState} {D X : Set ℕ} {p : ℕ}

theorem readdir_volume (hv : Volume G st.mem.dev D X) (hp : p ∈ D) : ∃ listing : List Dirent,
    (∀ i < 2 ^ 32, ∃ m', fatReaddir Disk.dev G p i st.mem =
      some ((listing[i]?).map fun e => ((fatNameToDot e.name).take (vfsMaxName - 1), e.type), m')) ∧
    ((listing.filter (!·.isDot)).map (·.name)).Nodup ∧
    (∀ key e, G.entryOf st.mem.dev p key = some e ↔ e ∈ listing.filter (!·.isDot) ∧ e.name = key) ∧
    (listing.filter (·.isDot)).map (·.name) =
      if p = G.rootDir then [] else [padded 11 [46], padded 11 [46, 46]] := by
  have htidy := hv.tidy p hp
  have hslots := map_toSlot_live (G := G) st.mem p
  -- no labels and no long names
  have hfilter : (G.live st.mem p).filter (!·.raw.isVolumeId) = G.live st.mem p := by
    refine List.filter_eq_self.2 fun x hx => ?_
    have := htidy.plain _ (toSlot_mem_of_entriesOf (mem_entries_of_live hx))
    rw [Dirent.plain, Bool.and_eq_true] at this
    exact this.2
  have hentry : ∀ x ∈ G.live st.mem p, readdirEntry x =
      ((fatNameToDot x.raw.name).take (vfsMaxName - 1), x.raw.type) := by
    intro x hx
    have hlfn := entriesOf_lfn (l := st.mem.lfn.reset) rfl (fun s hs => htidy.isLong hs) (mem_entries_of_live hx)
    rw [readdirEntry, Lfn.name?, hlfn]
    rfl
  have hlisting : (liveSlots (G.dirSlots st.mem.dev p)).map (·.raw) = (G.live st.mem p).map (·.raw) := by
    rw [← hslots, List.map_map]
    rfl
  have hkids : ((liveSlots (G.dirSlots st.mem.dev p)).map (·.raw)).filter (!·.isDot) =
      (G.children st.mem.dev p).map (·.raw) := by
    rw [List.filter_map]
    rfl
  have hdots : ((liveSlots (G.dirSlots st.mem.dev p)).map (·.raw)).filter (·.isDot) =
      (G.dots st.mem.dev p).map (·.raw) := by
    rw [List.filter_map]
    rfl
  refine ⟨(liveSlots (G.dirSlots st.mem.dev p)).map (·.raw), fun i hi => ?_, ?_, fun key e => ?_, ?_⟩
  · obtain ⟨m', -, hread⟩ := fatReaddir_eq (G := G) p hi st.mem
    refine ⟨m', ?_⟩
    rw [hread, hfilter, hlisting, List.getElem?_map, Option.map_map]
    refine congrArg (fun o => some (o, m')) (Option.map_congr fun x hx => ?_)
    exact hentry x (List.mem_of_getElem? hx)
  · rw [hkids, List.map_map, List.nodup_iff_pairwise_ne, List.pairwise_map]
    exact hv.keys p hp
  · rw [hkids]
    constructor
    · intro h
      obtain ⟨s, hs, rfl⟩ := Option.map_eq_some_iff.1 h
      have hname := List.find?_some hs
      exact ⟨List.mem_map.2 ⟨s, List.mem_of_find?_eq_some hs, rfl⟩, beq_iff_eq.1 hname⟩
    · rintro ⟨he, rfl⟩
      obtain ⟨s, hs, rfl⟩ := List.mem_map.1 he
      exact entryOf_eq_some (hv.keys p hp) hs
  · rw [hdots, List.map_map]
    exact hv.dotted p hp

/-- **A FAT directory is a finite map**, in every state that a run from an empty volume reaches. -/
theorem dirRefines_of_reaches (G : FatState) (hG : GeoOk G) (st : VolState) (h : (volSystem G freshCall).Reaches st)
    (p : ℕ) (hp : IsDir G st p) : DirRefines G st p := by
  obtain ⟨D, X, hv, hheld⟩ := VolInv.of_reaches hG h
  have hdir : ∀ {q}, IsDir G st q → q ∈ D := fun hq => hq.elim (hheld _) hv.toOwned.reachDir
  have hpD := hdir hp
  refine ⟨fun room name => ?_, fun fuel name type hname hfuel => ?_, fun fuel name hfuel => ?_, readdir_volume hv hpD⟩
  · obtain ⟨l, heq⟩ := fatFinddir_eq (G := G) room p name st.mem
    refine ⟨_, _, heq, ?_⟩
    rw [lookup_eq_keyed (hv.tidy p hpD), entryOf_isSome_iff]
    cases room <;> cases G.keyed st.mem p name <;> simp
  · obtain ⟨⟨r, m'⟩, hcreate⟩ := Option.isSome_iff_exists.1
      ((fatCreate_returns hG.lastCluster_succ fuel p name type st.mem).2 hfuel (hv.createEnds hG hpD name type))
    obtain ⟨D', X', -, -, -, -, hres⟩ := fatCreate_spec hG hv hpD hcreate
    refine ⟨r, m', hcreate, fun q hq hqp => ?_, ?_⟩
    · rcases hres with ⟨-, -, hsame⟩ | ⟨-, -, hother, -⟩
      · exact entryOf_congr (hsame q (hdir hq))
      · exact entryOf_congr (hother q (hdir hq) hqp)
    · rcases hres with ⟨hr, -, hsame⟩ | ⟨hr, habsent, -, t, hnew, ca, cb, hold, hkids⟩
      · exact Or.inr ⟨hr, entryOf_congr (hsame p hpD)⟩
      · have hshown : t.raw.visible = true := by
          rw [hnew.shown]
          exact bne_iff_ne.2 (head_ne_deleted hname)
        rw [hshown, if_pos rfl, List.append_assoc, List.singleton_append] at hkids
        have hinsert := entryOf_insert hold hkids (by rw [hnew.key]; exact habsent)
        rw [hnew.key] at hinsert
        exact Or.inl ⟨hr, entryOf_eq_none.2 habsent, t.raw, hnew.size, hnew.kind, hinsert⟩
  · obtain ⟨m₀, hrun⟩ := Option.isSome_iff_exists.1
      ((fatRun_returns hG.copies hG.lastCluster_succ fuel (.unlink p name) st.mem).2 hfuel trivial)
    obtain ⟨⟨r, m'⟩, hunlink, -⟩ := Option.map_eq_some_iff.1 hrun
    refine ⟨r, m', hunlink, ?_⟩
    rcases fatUnlink_spec hG hv hpD hunlink with ⟨hr, hd, habsent⟩ | ⟨hr, x, ca, cb, hx, hold, -, hnew, hother, -⟩
    · have hnone := entryOf_eq_none.2 habsent
      rw [hr, hd, hnone]
      refine ⟨by simp, ?_, fun _ _ _ _ => rfl⟩
      rw [← hnone, Function.update_eq_self]
    · obtain ⟨hs, hname⟩ := keyed_toSlot hx
      have hfound : G.entryOf st.mem.dev p (fatNameFromDot name) = some x.raw := by
        rw [← hname]
        exact entryOf_eq_some (hv.keys p hpD) hs
      have hp' : p ∈ without D x.raw.firstCluster := by
        refine ⟨hpD, ?_⟩
        by_cases heq : p = x.raw.firstCluster
        · exact Or.inl (heq ▸ hv.loop p hpD _ hs heq.symm)
        · exact Or.inr heq
      refine ⟨by rw [hfound, hr]; simp, ?_, fun q hq hqp hrem => ?_⟩
      · rw [← hname]
        exact entryOf_remove hold (hnew hp') (hv.keys p hpD)
      · refine entryOf_congr (hother q ⟨hdir hq, ?_⟩ hqp)
        by_cases h₀ : x.raw.firstCluster = 0
        · exact Or.inl h₀
        · refine Or.inr fun heq => ?_
          cases hxd : x.raw.isDir with
          | true => exact hrem _ hfound hxd heq
          | false => exact ((hv.file p hpD _ hs hxd).resolve_left h₀) (heq ▸ hdir hq)

end

theorem reaches_rootFile : ∃ st, (volSystem smallFat freshCall).Reaches st ∧
    (smallFat.entryOf st.mem.dev 0 (fatNameFromDot [97])).isSome := by
  have hrun : (volRun freshCall [.create 0 [97] .file]).any
      (fun st => (smallFat.entryOf st.mem.dev 0 (fatNameFromDot [97])).isSome) = true := by
    decide +kernel
  obtain ⟨st, hst, hfound⟩ := (Option.any_eq_true _ _).1 hrun
  exact ⟨st, volRun_reaches hst, hfound⟩

/-- The hypotheses of `dirRefines_of_reaches` are satisfiable: the root of a small volume that holds
a file. -/
theorem dirRefines_of_reaches_small : ∃ st, (volSystem smallFat freshCall).Reaches st ∧
    (smallFat.entryOf st.mem.dev 0 (fatNameFromDot [97])).isSome ∧ DirRefines smallFat st 0 := by
  obtain ⟨st, hreach, hfound⟩ := reaches_rootFile
  exact ⟨st, hreach, hfound, dirRefines_of_reaches smallFat geoOk_smallFat st hreach 0 (Or.inr .root)⟩

/-- **Without memory a key is not found:** `fat_finddir` returns null for a file that was just made,
where `kmalloc` does not give it a node. -/
theorem finddir_without_memory : ∃ st, (volSystem smallFat freshCall).Reaches st ∧
    (smallFat.entryOf st.mem.dev 0 (fatNameFromDot [97])).isSome ∧
    (fatFinddir Disk.dev smallFat none 0 [97] st.mem).map Prod.fst = some none := by
  obtain ⟨st, hreach, hfound⟩ := reaches_rootFile
  obtain ⟨l, h⟩ := fatFinddir_eq (G := smallFat) none 0 [97] st.mem
  exact ⟨st, hreach, hfound, by simp [h]⟩

end LighthOS
