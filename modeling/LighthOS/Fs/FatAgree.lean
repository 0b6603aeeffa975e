/-
# Which entry of a directory a name stands for

`cb_lookup`, `cb_flush` and `cb_unlink` of `src/fs/fat.c` each look for the entry of a
name in their own way.  A lookup passes over volume labels and also takes an entry with
the name as its long name; the flush at the end of `fat_write` and `fat_unlink` take the
first live entry with the 8.3 name, whatever it is.

They agree exactly where the first live entry with the 8.3 name is no volume label and no
regular entry before it has the name as its long name (`lookup_flush_unlink_agree`).  A
file with the name of the volume's label is deleted by deleting the label
(`unlink_deletes_label`).

What `fat_write` does before its flush is to put bytes into the clusters of the file, which
must be others than those of the directory.  The flush goes to the directory that the context of
the node names, so there must have been memory for the context, or the directory is that with
the inode `0`.
-/

import LighthOS.Fs.FatOps

namespace LighthOS

open FatState

section Agree

variable (G : FatState) (m : FatMem Disk) (dir : ℕ) (name : Bytes)

/-- A `fat_write` through the node of an entry with the clusters `l` writes its bytes into these and
into new ones, leaves the directory alone, and then patches the slot of the entry and nothing else. -/
def FlushesTo (ctx : Bool) (l : List ℕ) (e : Entry) : Prop :=
  ∀ (fuel : ℕ) (buf : ℕ → UInt8) (size offset n : ℕ) (node' : FatNode) (m' : FatMem Disk),
    fatWrite Disk.dev G fuel (nodeOf ctx dir name e.raw) buf size offset m = some ((n : ℤ), node', m') →
    ∃ new d₁, Written G m.dev d₁ node'.inode l new (u32 offset) n buf ∧
      G.dirSlots d₁ dir = G.dirSlots m.dev dir ∧
      m'.dev = d₁.setSlot e.toSlot (e.raw.patch (max e.raw.size (u32 (u32 offset + n))) node'.inode)

/-- `fat_unlink` succeeds if it returns, and what it does is to free the chain of an entry and
to mark its slot as deleted. -/
def UnlinksTo (e : Entry) : Prop :=
  ∀ fuel, (fatUnlink Disk.dev G fuel dir name m).map (fun r => (r.1, r.2.dev)) =
    (if 2 ≤ e.raw.firstCluster then G.freeChain fuel e.raw.firstCluster m.dev else some m.dev).map
      fun d => (0, d.setSlot e.toSlot (Function.update ((d e.lba).slot e.off) 0 0xE5))

/-- The first live entry with the 8.3 name is no volume label, and no regular entry before it
has the name as its long name. -/
def NamedFirst : Prop :=
  ∃ before t behind, G.live m dir = before ++ t :: behind ∧
    t.raw.name = fatNameFromDot name ∧ t.raw.isVolumeId = false ∧
    ∀ x ∈ before, x.raw.name ≠ fatNameFromDot name ∧
      (x.raw.isVolumeId = false → longMatch name x.lfn = false)

variable {G m dir name} {e : Entry}

theorem NamedFirst.lookup (h : NamedFirst G m dir name) :
    ∃ t, G.lookup m dir name = some t ∧ G.keyed m dir name = some t := by
  obtain ⟨before, t, behind, hl, hkey, hvol, hbefore⟩ := h
  refine ⟨t, ?_, ?_⟩
  · rw [FatState.lookup, List.find?_eq_some_iff_append]
    refine ⟨by simp [lookupMatch, hvol, hkey], before, behind, hl, fun x hx => ?_⟩
    obtain ⟨hne, hlong⟩ := hbefore x hx
    cases hxvol : x.raw.isVolumeId with
    | true => simp
    | false => simp [lookupMatch, hne, hlong hxvol]
  · rw [FatState.keyed, List.find?_eq_some_iff_append]
    exact ⟨by simp [hkey], before, behind, hl, fun x hx => by simp [(hbefore x hx).1]⟩

/-- Where the entry that was looked up is, up to its place among the labels, the first one with the 8.3
name, it is the first one. -/
theorem NamedFirst.of_keyed {t : Entry} (hfound : G.lookup m dir name = some e)
    (hkeyed : G.keyed m dir name = some t) (hraw : t.raw = e.raw) : NamedFirst G m dir name := by
  obtain ⟨hmatch, before, behind, hl, hbefore⟩ := List.find?_eq_some_iff_append.1 hfound
  have hvol : e.raw.isVolumeId = false := by
    rw [Bool.and_eq_true, Bool.not_eq_true'] at hmatch
    exact hmatch.1
  have hkey := name_of_keyed hkeyed
  refine ⟨before, e, behind, hl, hraw ▸ hkey, hvol, fun x hx => ⟨fun hxkey => ?_, fun hxvol => ?_⟩⟩
  -- an earlier entry with the 8.3 name is a volume label, and then so is the first one
  · obtain ⟨y, hy⟩ := Option.isSome_iff_exists.1
      (List.find?_isSome.2 ⟨x, hx, beq_iff_eq.2 hxkey⟩ :
        (before.find? fun x => x.raw.name == fatNameFromDot name).isSome)
    have hfirst : G.keyed m dir name = some y := by
      rw [FatState.keyed, hl, List.find?_append, hy, Option.some_or]
    obtain rfl : t = y := Option.some.inj (hkeyed.symm.trans hfirst)
    have hpassed := hbefore t (List.mem_of_find?_eq_some hy)
    rw [hraw, hvol, lookupMatch, ← hraw, hkey] at hpassed
    simp at hpassed
  · have := hbefore x hx
    simp only [hxvol, lookupMatch, Bool.not_false, Bool.true_and, Bool.not_eq_true',
      Bool.or_eq_false_iff] at this
    exact this.2

/-- A chain that is freed is in the table only. -/
theorem freeChain_sector (hG : GeoOk G) {d d' : Disk} {c fuel lba : ℕ} (hlba : ¬G.InTable lba)
    (h : G.freeChain fuel c d = some d') : d' lba = d lba := by
  induction fuel generalizing c d with
  | zero => cases h
  | succ fuel ih =>
      rw [freeChain] at h
      split_ifs at h with hc
      · exact Option.some.inj h ▸ hG.setEntry_outside hc.2 hlba d 0
      · rw [ih h, hG.setEntry_outside hc.2 hlba d 0]
      · exact Option.some.inj h ▸ rfl

/-- The sector of an entry is the same once the chain of some entry is freed. -/
theorem unlinked_sector (hG : GeoOk G) (hdir : dir = 0 ∨ ∃ k, G.IsChain m.dev dir k) (he : e ∈ G.live m dir)
    {c fuel : ℕ} {d : Disk} (h : (if 2 ≤ c then G.freeChain fuel c m.dev else some m.dev) = some d) :
    d e.lba = m.dev e.lba := by
  split_ifs at h
  · have hslot := toSlot_mem_of_entriesOf (mem_entries_of_live he)
    exact freeChain_sector hG (dirLbas_not_inTable hG hdir (mem_dirSlots.1 hslot).1) h
  · rw [← Option.some.inj h]

/-- Where `fat_unlink` marks the slot that was looked up, the first live entry with the 8.3 name is
in it. -/
theorem UnlinksTo.keyed (h : UnlinksTo G m dir name e) (hG : GeoOk G)
    (hdir : dir = 0 ∨ ∃ k, G.IsChain m.dev dir k) (he : e ∈ G.live m dir) :
    ∃ t, G.keyed m dir name = some t ∧ t.raw = e.raw := by
  -- with enough rounds the chain of the entry is freed
  obtain ⟨d, hd⟩ : ∃ d, (if 2 ≤ e.raw.firstCluster then
      G.freeChain ((G.linked m.dev).card + 1) e.raw.firstCluster m.dev else some m.dev) = some d := by
    split_ifs
    · exact Option.isSome_iff_exists.1 (freeChain_isSome hG.copies (Nat.lt_succ_self _))
    · exact ⟨_, rfl⟩
  have hunlink := h ((G.linked m.dev).card + 1)
  rw [hd, Option.map_some, fatUnlink_eq] at hunlink
  cases hkeyed : G.keyed m dir name with
  | none =>
      rw [hkeyed, Option.elim_none, Option.some.injEq, Prod.mk.injEq] at hunlink
      cases hunlink.1
  | some t =>
      refine ⟨t, rfl, ?_⟩
      have ht := List.mem_of_find?_eq_some hkeyed
      rw [hkeyed, Option.elim_some] at hunlink
      obtain ⟨d', hd', heq⟩ := Option.map_eq_some_iff.1 hunlink
      have hdisk := (Prod.mk.inj heq).2
      by_contra hne
      have hloc : e.lba ≠ t.lba ∨ e.off ≠ t.off := by
        by_contra hsame
        push Not at hsame
        exact hne (by rw [raw_of_mem_live ht, raw_of_mem_live he, hsame.1, hsame.2])
      -- the slot of the entry would be as before, and is marked
      have hslot := @slot_setSlot_of_ne d' t.toSlot e.toSlot (Function.update ((d' t.lba).slot t.off) 0 0xE5)
        (off_mod_of_mem_live ht) (off_mod_of_mem_live he) hloc
      rw [hdisk, slot_setSlot_self, unlinked_sector hG hdir he hd', ← raw_of_mem_live he] at hslot
      have hmark : e.raw 0 = 0xE5 := by rw [← hslot]; rfl
      have hlive := (List.mem_filter.1 he).2
      rw [Dirent.isDeleted, hmark] at hlive
      cases hlive

/-- The write leaves the slots of the directory alone. -/
theorem dirSlots_written (hG : GeoOk G) {d₁ : Disk} {h off n : ℕ} {l new : List ℕ} {src : ℕ → UInt8}
    (hdir : dir = 0 ∨ ∃ k, G.IsChain m.dev dir k) (hdis : ∀ k, G.IsChain m.dev dir k → k.Disjoint l)
    (hw : Written G m.dev d₁ h l new off n src) : G.dirSlots d₁ dir = G.dirSlots m.dev dir := by
  refine dirSlots_only hG hw.only hdir fun k hk => List.disjoint_append_right.2 ⟨hdis k hk, fun c hc hnew => ?_⟩
  exact (hk.used c hc).2 (hw.free c hnew).2

/-- **When lookup, flush and unlink agree on the entry.**  For every volume, every contents of
a directory and every name: if `fat_finddir` finds an entry whose clusters are not those of the
directory, and its node knows the directory, then the flush of `fat_write` through
its node and `fat_unlink` act on the slot of this entry exactly where it is the first live one
with the 8.3 name. -/
theorem lookup_flush_unlink_agree (G : FatState) (hG : GeoOk G) (m : FatMem Disk) (dir : ℕ) (name : Bytes)
    (e : Entry) (hfound : G.lookup m dir name = some e) (l : List ℕ)
    (hl : e.raw.firstCluster = 0 ∧ l = [] ∨ G.IsChain m.dev e.raw.firstCluster l)
    (hdir : dir = 0 ∨ ∃ k, G.IsChain m.dev dir k) (hdis : ∀ k, G.IsChain m.dev dir k → k.Disjoint l)
    (ctx : Bool) (hctx : ctx = true ∨ dir = 0) :
    (∃ lfn, fatFinddir Disk.dev G (some ctx) dir name m = some (some (nodeOf ctx dir name e.raw), ⟨m.dev, lfn⟩)) ∧
      (FlushesTo G m dir name ctx l e ∧ UnlinksTo G m dir name e ↔ NamedFirst G m dir name) := by
  refine ⟨?_, fun ⟨_, hunlink⟩ => ?_, fun h => ?_⟩
  · obtain ⟨lfn, h⟩ := fatFinddir_eq (G := G) (some ctx) dir name m
    rw [hfound] at h
    exact ⟨lfn, h⟩
  · obtain ⟨t, hkeyed, hraw⟩ := hunlink.keyed hG hdir (List.mem_of_find?_eq_some hfound)
    exact .of_keyed hfound hkeyed hraw
  · obtain ⟨t, hlookup, hkeyed⟩ := h.lookup
    obtain rfl : e = t := Option.some.inj (hfound.symm.trans hlookup)
    refine ⟨fun fuel buf size offset n node' m' hwrite => ?_, fun fuel => ?_⟩
    · have hparent : (nodeOf ctx dir name e.raw).parent = dir := by
        rcases hctx with rfl | rfl
        · rfl
        · exact ite_self 0
      cases htype : (nodeOf ctx dir name e.raw).type with
      | dir =>
          rw [fatWrite, if_pos (by rw [htype]; decide)] at hwrite
          cases hwrite
      | file =>
          rcases fatWrite_written hG htype hl hwrite with ⟨hr, -⟩ |
            ⟨h, new, done, d₁, hdone, hnode, -, hw, -, -, -, hflush⟩
          · omega
          obtain rfl : n = done := by omega
          have hslots := dirSlots_written hG hdir hdis hw
          refine ⟨new, d₁, hnode ▸ hw, hslots, ?_⟩
          obtain ⟨lfn, hflush'⟩ := fatFlushDirent_eq (G := G) dir (name.take (vfsMaxName - 1))
            (max e.raw.size (u32 (u32 offset + n))) h ⟨d₁, m.lfn⟩
          obtain ⟨t, ht, htslot⟩ := Option.map_eq_some_iff.1 (toSlot_keyed_congr ⟨d₁, m.lfn⟩ hslots
            (fatNameFromDot_take (n := vfsMaxName - 1) (by decide) name) hkeyed)
          rw [ht, Option.elim_some, htslot] at hflush'
          rw [hparent] at hflush
          exact hnode ▸ congrArg FatMem.dev (Option.some.inj (hflush.symm.trans hflush'))
    · rw [fatUnlink_eq, hkeyed, Option.elim_some]

end Agree

/-! ### A volume label -/

/-- A root directory with the label `FOO` and the file `FOO`. -/
def labelRoot : Sector :=
  (zeroSector.put 0 32 (newDirent (padded 11 [70, 79, 79]) 0x08 0)).put 32 32
    (newDirent (padded 11 [70, 79, 79]) 0x00 2)

/-- The volume, with the file in cluster 2. -/
def labelMem : FatMem Disk := freshMem (smallDisk (zeroSector.put 4 2 fun _ => 0xFF) labelRoot)

/-- The hypotheses of `lookup_flush_unlink_agree` are satisfiable: the file `foo` of this volume
is found in the second slot. -/
theorem lookup_flush_unlink_agree_label : ∃ e, smallFat.lookup labelMem 0 [102, 111, 111] = some e ∧
    e.off = 32 ∧ (FlushesTo smallFat labelMem 0 [102, 111, 111] true [2] e ∧
      UnlinksTo smallFat labelMem 0 [102, 111, 111] e ↔ NamedFirst smallFat labelMem 0 [102, 111, 111]) := by
  have hrun : (smallFat.lookup labelMem 0 [102, 111, 111]).any
      (fun e => e.off == 32 && e.raw.firstCluster == 2) = true := by
    decide +kernel
  obtain ⟨e, he, hprop⟩ := (Option.any_eq_true _ _).1 hrun
  rw [Bool.and_eq_true, beq_iff_eq, beq_iff_eq] at hprop
  have hchain : smallFat.IsChain labelMem.dev e.raw.firstCluster [2] := by
    rw [hprop.2]
    exact .singleton (follow_eq_none.2 (by decide +kernel)) ⟨by decide, by decide +kernel⟩
  exact ⟨e, he, hprop.1, (lookup_flush_unlink_agree smallFat geoOk_smallFat labelMem 0 _ e he [2] (Or.inr hchain)
    (Or.inl rfl) (fun k hk => absurd rfl (IsChain.ne_zero hk)) true (Or.inl rfl)).2⟩

/-- **A file with the name of the volume's label.**  `fat_finddir` finds the file in the second
slot.  `fat_write` of five bytes through its node stores the new size in the first slot, and
`fat_unlink` of the name deletes the first slot and frees nothing. -/
theorem unlink_deletes_label : ∃ e, smallFat.lookup labelMem 0 [102, 111, 111] = some e ∧
    e.off = 32 ∧ e.raw.firstCluster = 2 ∧
    (fatWrite Disk.dev smallFat 5 (nodeOf true 0 [102, 111, 111] e.raw) (fun _ => 1) 5 0 labelMem).map
      (fun r => (r.1, readLe (r.2.2.dev 2) 28 4, readLe (r.2.2.dev 2) 60 4)) = some (5, 5, 0) ∧
    (fatUnlink Disk.dev smallFat 5 0 [102, 111, 111] labelMem).map
      (fun r => (r.1, r.2.dev 2 0, r.2.dev 2 32, smallFat.entryAt r.2.dev 2)) =
        some (0, 0xE5, 70, 0xFFFF) := by
  have hrun : (smallFat.lookup labelMem 0 [102, 111, 111]).any
      (fun e => e.off == 32 && e.raw.firstCluster == 2 &&
        (fatWrite Disk.dev smallFat 5 (nodeOf true 0 [102, 111, 111] e.raw) (fun _ => 1) 5 0 labelMem).map
          (fun r => (r.1, readLe (r.2.2.dev 2) 28 4, readLe (r.2.2.dev 2) 60 4)) == some (5, 5, 0)) = true := by
    decide +kernel
  obtain ⟨e, he, hprop⟩ := (Option.any_eq_true _ _).1 hrun
  rw [Bool.and_eq_true, Bool.and_eq_true, beq_iff_eq, beq_iff_eq, beq_iff_eq] at hprop
  exact ⟨e, he, hprop.1.1, hprop.1.2, hprop.2, by decide +kernel⟩

end LighthOS
