/-
# Files of a volume

What `fat_write` leaves of a file on a volume with cluster ownership: the bytes that are
written at the 32-bit position of the offset, zeros in the clusters that were allocated on
the way, everything else as before (`fatWrite_file`).  The call fails exactly for want of
clusters: the file and the free clusters together do not reach the offset.
-/

import LighthOS.Fs.FatOwnership

namespace LighthOS

namespace FatState

/-- The free clusters. -/
def freeClusters (G : FatState) (d : Disk) : Finset ℕ :=
  (Finset.range (G.lastCluster + 1)).filter fun c => 2 ≤ c ∧ G.entryAt d c = 0

/-- A byte of the file with the given clusters; behind the last cluster there are zeros. -/
def fileByte (G : FatState) (d : Disk) (l : List ℕ) (i : ℕ) : UInt8 :=
  if i < l.length * G.bytesPerCluster then G.byteAt d l i else 0

/-- **A node of a file** with the clusters `l`: the node of an entry in a directory of the
volume. -/
structure FileNode (G : FatState) (d : Disk) (node : FatNode) (l : List ℕ) : Prop where
  type : node.type = .file
  parent : ReachDir G d node.parent
  chain : node.inode = 0 ∧ l = [] ∨ G.IsChain d node.inode l
  entry : ∃ s ∈ G.children d node.parent, s.raw.isDir = false ∧ s.raw.firstCluster = node.inode

variable {G : FatState} {d d' : Disk} {c h off n : ℕ} {l new : List ℕ} {src : ℕ → UInt8} {D X : Set ℕ}
  {m m' : FatMem Disk} {node node' : FatNode}

theorem mem_freeClusters : c ∈ G.freeClusters d ↔ G.Valid c ∧ G.entryAt d c = 0 := by
  rw [freeClusters, Finset.mem_filter, Finset.mem_range]
  constructor
  · rintro ⟨hlt, h₂, h₀⟩
    exact ⟨⟨h₂, by omega⟩, h₀⟩
  · rintro ⟨⟨h₂, hle⟩, h₀⟩
    exact ⟨by omega, h₂, h₀⟩

theorem freeClusters_eq_empty : G.freeClusters d = ∅ ↔ G.firstFree d = none := by
  rw [firstFree, freeFrom_eq_none, Finset.eq_empty_iff_forall_notMem]
  refine forall_congr' fun x => ?_
  rw [mem_freeClusters]
  exact ⟨fun hx h₂ hle h₀ => hx ⟨⟨h₂, hle⟩, h₀⟩, fun hx hmem => hx hmem.1.1 hmem.1.2 hmem.2⟩

/-- The clusters that a call puts behind a chain are free no longer. -/
theorem Written.freeClusters_eq (hused : ∀ x ∈ l, G.entryAt d x ≠ 0) (hw : Written G d d' h l new off n src) :
    G.freeClusters d' = G.freeClusters d \ new.toFinset := by
  ext x
  rw [Finset.mem_sdiff, mem_freeClusters, mem_freeClusters, List.mem_toFinset]
  constructor
  · rintro ⟨hv, h₀⟩
    have hx : x ∉ l ++ new := fun hmem => (hw.chain.used x hmem).2 h₀
    rw [hw.entries x hv hx] at h₀
    exact ⟨⟨hv, h₀⟩, fun hmem => hx (List.mem_append_right _ hmem)⟩
  · rintro ⟨⟨hv, h₀⟩, hnew⟩
    refine ⟨hv, ?_⟩
    rw [hw.entries x hv fun hmem => (List.mem_append.1 hmem).elim (fun hx => hused x hx h₀) hnew]
    exact h₀

theorem Written.card_freeClusters (hused : ∀ x ∈ l, G.entryAt d x ≠ 0) (hw : Written G d d' h l new off n src) :
    (G.freeClusters d').card + new.length = (G.freeClusters d).card := by
  have hnodup : new.Nodup := (List.nodup_append.1 hw.chain.nodup).2.1
  have hsub : new.toFinset ⊆ G.freeClusters d := fun x hx =>
    mem_freeClusters.2 (hw.free x (List.mem_toFinset.1 hx))
  have hcard := Finset.card_sdiff_add_card_eq_card hsub
  rwa [← hw.freeClusters_eq hused, List.toFinset_card_of_nodup hnodup] at hcard

/-- The bytes of a file that was written to. -/
theorem Written.fileByte_eq (hw : Written G d d' h l new off n src) (i : ℕ) :
    G.fileByte d' (l ++ new) i = if off ≤ i ∧ i < off + n then src (i - off) else G.fileByte d l i := by
  have hle : l.length * G.bytesPerCluster ≤ (l ++ new).length * G.bytesPerCluster :=
    Nat.mul_le_mul_right _ (by simp)
  unfold fileByte
  by_cases hi : i < (l ++ new).length * G.bytesPerCluster
  · rw [if_pos hi, hw.bytes i hi]
  · have hin := hw.inside
    rw [if_neg hi, if_neg (by omega), if_neg (by omega)]

namespace FileNode

variable (hn : FileNode G d node l)
include hn

theorem used : ∀ x ∈ l, G.entryAt d x ≠ 0 := by
  rcases hn.chain with ⟨-, rfl⟩ | hl
  · exact fun x hx => absurd hx List.not_mem_nil
  · exact fun x hx => (hl.used x hx).2

/-- **Ownership after a write to a file**: the chain of the file is none of a directory. -/
theorem owned (hG : GeoOk G) (ho : Owned G d D X) (hp : node.parent ∈ D) (hhead : node.inode ≠ 0 → h = node.inode)
    (hw : Written G d d' h l new off n src) :
    ∃ X', Owned G d' D X' ∧ (h ∈ X' ∨ node.inode = h) ∧ h ∈ G.heads d' D ∪ X' ∧ h ∉ D ∧
      ∀ q ∈ D, G.dirSlots d' q = G.dirSlots d q := by
  obtain ⟨s, hs, hfile, hfirst⟩ := hn.entry
  rcases hn.chain with ⟨h₀, rfl⟩ | hl
  · obtain ⟨ho', hslots⟩ := ho.insert hG hw.chain hw.only fun c hc => (hw.free c (by simpa using hc)).2
    have hX := Set.mem_insert h X
    exact ⟨_, ho', Or.inl hX, Or.inr hX, fun hD => ho'.extra h hX ⟨hw.chain.ne_zero, Or.inl hD⟩, hslots⟩
  · have h₀ := hl.ne_zero
    obtain rfl := hhead h₀
    have hmem : node.inode ∈ G.heads d D ∪ X := Or.inl ⟨h₀, Or.inr ⟨node.parent, hp, s, hs, hfirst⟩⟩
    have hD : node.inode ∉ D := by
      have := ho.file node.parent hp s hs hfile
      rw [hfirst] at this
      exact this.resolve_left h₀
    obtain ⟨ho', hslots⟩ := ho.written hG hmem hD hl hw
    have hheads := heads_congr fun q hq => children_congr (hslots q hq)
    exact ⟨X, ho', Or.inr rfl, by rwa [hheads], hD, hslots⟩

end FileNode

/-- The entry that `fat_flush_dirent` stores is in no cluster of a chain that is none of a
directory. -/
theorem Owned.flush_apart (hG : GeoOk G) (ho : Owned G m.dev D X) {p : ℕ} (hp : p ∈ D) (hh : h ∈ G.heads m.dev D ∪ X)
    (hD : h ∉ D) (hl : G.IsChain m.dev h l) {name : Bytes} {size first : ℕ}
    (hf : fatFlushDirent Disk.dev G p name size first m = some m') :
    (∀ x, G.Valid x → G.entryAt m'.dev x = G.entryAt m.dev x) ∧
      ∀ lba, G.InClusters l lba → m'.dev lba = m.dev lba := by
  obtain ⟨lfn, hflush⟩ := fatFlushDirent_eq (G := G) p name size first m
  rw [hflush, Option.some.injEq] at hf
  subst hf
  cases hk : G.keyed m p name with
  | none => exact ⟨fun _ _ => rfl, fun _ _ => rfl⟩
  | some y =>
      have hslot := mem_children (keyed_toSlot hk).1
      obtain ⟨hlba, -⟩ := mem_dirSlots.1 hslot
      have htable := dirLbas_not_inTable hG (ho.dir_chain hp) hlba
      refine ⟨fun x hx => hG.entryAt_update htable hx.2, fun lba hin => ?_⟩
      refine Function.update_of_ne (fun he : lba = y.toSlot.lba => ?_) _ _
      exact dirLbas_apart hG (ho.dir_chain hp) (fun c hc => IsChain.valid hl hc)
        (fun k hk => ho.dir_apart hp hh (fun he => hD (he ▸ hp)) hl hk) hlba (he ▸ hin)

/-- **`fat_write`** to a file of a volume: the file and the free clusters do not reach the offset
and the call fails, or the file has the written bytes at the 32-bit position of the offset. -/
theorem fatWrite_file (hG : GeoOk G) (hown : ClusterOwnership G m.dev) (hn : FileNode G m.dev node l)
    {fuel size offset : ℕ} {buf : ℕ → UInt8} {r : ℤ}
    (hf : fatWrite Disk.dev G fuel node buf size offset m = some (r, node', m')) :
    (r = -1 ∧ l.length + (G.freeClusters m.dev).card ≤ u32 offset / G.bytesPerCluster) ∨
    ∃ (new : List ℕ) (done : ℕ), r = (done : ℤ) ∧ done ≤ size ∧
      (done = size ∨ u32 offset + done = (l ++ new).length * G.bytesPerCluster) ∧
      u32 offset / G.bytesPerCluster < (l ++ new).length ∧
      (l ++ new).length ≤ l.length + (G.freeClusters m.dev).card ∧ G.IsChain m'.dev node'.inode (l ++ new) ∧
      ∀ i, G.fileByte m'.dev (l ++ new) i =
        if u32 offset ≤ i ∧ i < u32 offset + done then buf (i - u32 offset) else G.fileByte m.dev l i := by
  have hempty : ∀ {d : Disk}, G.firstFree d = none → (G.freeClusters d).card = 0 := fun h => by
    rw [freeClusters_eq_empty.2 h, Finset.card_empty]
  rcases fatWrite_written hG hn.type hn.chain hf with ⟨hr, hfree, -, hfail⟩ |
    ⟨h, new, done, d₁, hr, hinode, hhead, hw, hle, hreach, hdone, hflush⟩
  · refine Or.inl ⟨hr, ?_⟩
    rcases hfail with ⟨rfl, h₀⟩ | ⟨h, new, -, hw, hshort⟩
    · rcases hn.chain with ⟨-, rfl⟩ | hl
      · rw [hempty hfree]
        exact Nat.zero_le _
      · exact absurd h₀ hl.ne_zero
    · have hcard := hw.card_freeClusters hn.used
      rw [hempty hfree] at hcard
      rw [List.length_append] at hshort
      omega
  · obtain ⟨X, ho, -, hh, hD, -⟩ := hn.owned hG hown.owned hn.parent hhead hw
    obtain ⟨htable, hsame⟩ := Owned.flush_apart (m := ⟨d₁, m.lfn⟩) hG ho hn.parent hh hD hw.chain hflush
    have hcard := hw.card_freeClusters hn.used
    subst hinode
    refine Or.inr ⟨new, done, hr, hle, hdone.imp_right And.right, hreach, ?_, ?_, fun i => ?_⟩
    · rw [List.length_append]
      omega
    · exact hw.chain.congr fun x hx => htable x (IsChain.valid hw.chain hx)
    · have hbytes : G.fileByte m'.dev (l ++ new) i = G.fileByte d₁ (l ++ new) i := by
        unfold fileByte
        split_ifs with hi
        · exact byteAt_congr hG (fun c hc => IsChain.valid hw.chain hc) hsame hi
        · rfl
      rw [hbytes, hw.fileByte_eq]

end FatState

open FatState

/-! ### A small file -/

/-- A small volume with a file of five bytes. -/
def fileOfFive : Option VolState := volRun freshCall [.create 0 [97] .file, .write 0 [97] (some true) (fun _ => 1) 5 0]

/-- Its node. -/
theorem fileOfFive_node : ∃ st, fileOfFive = some st ∧ ∃ x, smallFat.keyed st.mem 0 [97] = some x ∧
    (nodeOf true 0 [97] x.raw).size = 5 ∧ FileNode smallFat st.mem.dev (nodeOf true 0 [97] x.raw) [2] := by
  have hrun : fileOfFive.any (fun st => (smallFat.keyed st.mem 0 [97]).any (fun x =>
      !x.raw.isDir && decide (x.raw.size = 5) && decide (x.raw.firstCluster = 2)) &&
        decide (smallFat.next st.mem.dev 2 = 0) && decide (smallFat.entryAt st.mem.dev 2 ≠ 0)) = true := by
    decide +kernel
  obtain ⟨st, hst, hcheck⟩ := (Option.any_eq_true _ _).1 hrun
  simp only [Bool.and_eq_true, decide_eq_true_eq] at hcheck
  obtain ⟨⟨hkey, hnext⟩, hused⟩ := hcheck
  obtain ⟨x, hx, hx'⟩ := (Option.any_eq_true _ _).1 hkey
  simp only [Bool.and_eq_true, decide_eq_true_eq, Bool.not_eq_true'] at hx'
  obtain ⟨⟨hfile, hsize⟩, hfirst⟩ := hx'
  have hchain : smallFat.IsChain st.mem.dev 2 [2] := .singleton (follow_eq_none.2 hnext) ⟨by decide, hused⟩
  refine ⟨st, hst, x, hx, hsize, ?_, .root, Or.inr (hfirst ▸ hchain), x.toSlot, (keyed_toSlot hx).1, hfile, rfl⟩
  rw [nodeOf, Dirent.type, hfile]
  rfl

end LighthOS
