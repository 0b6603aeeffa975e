/-
# 64-bit offsets of `fat_read` and `fat_write`

Both calls take the offset modulo `2 ^ 32` where they look for the cluster, and `fat_read`
takes the sum of offset and size modulo `2 ^ 64` where it cuts off the size.  So an offset
of `2 ^ 32` and more is a position below `2 ^ 32`; there the size that is left,
`node->size - offset`, is negative and turns into a very large one, and `fat_read` copies
all of the chain into the buffer of the caller.

`offsetLaw_iff` says for which offsets and sizes a read gives the bytes that it should, and
a write leaves those below the offset alone; `offset_wraps` is a read of one byte that
copies 512.
-/

import LighthOS.Fs.FatFile

namespace LighthOS

namespace FatState

/-- **What an offset is.**  A read copies the bytes from the offset on, as far as the size and the
end of the file allow; a write fails, or changes no byte below the offset. -/
structure OffsetLaw (G : FatState) (m : FatMem Disk) (node : FatNode) (l : List ℕ) (size offset : ℕ) : Prop where
  read : fatRead Disk.dev G node size offset m =
    some (some (G.fileRange m.dev l offset (min size (node.size - offset))), m)
  write : ∀ fuel buf, G.lastCluster + 2 ≤ fuel → ∃ r node' m',
    fatWrite Disk.dev G fuel node buf size offset m = some (r, node', m') ∧
      (r = -1 ∨ ∃ l', G.IsChain m'.dev node'.inode l' ∧
        ∀ i < offset, G.fileByte m'.dev l' i = G.fileByte m.dev l i)

/-- The reads that no wrap-around spoils: below `2 ^ 32` the sum of offset and size fits into 64 bits,
or the offset is behind the file, or the file fills its clusters; from `2 ^ 32` on the low half of the
offset is behind the file. -/
def ReadFits (G : FatState) (node : FatNode) (l : List ℕ) (size offset : ℕ) : Prop :=
  if offset < 2 ^ 32 then offset + size < 2 ^ 64 ∨ node.size ≤ offset ∨ node.size = l.length * G.bytesPerCluster
  else node.size ≤ u32 offset

/-- The writes that no wrap-around spoils: from `2 ^ 32` on those of no byte, and those whose low half
of the offset the clusters do not reach. -/
def WriteFits (G : FatState) (d : Disk) (l : List ℕ) (size offset : ℕ) : Prop :=
  offset < 2 ^ 32 ∨ size = 0 ∨ l.length + (G.freeClusters d).card ≤ u32 offset / G.bytesPerCluster

variable {G : FatState} {m : FatMem Disk} {node : FatNode} {l : List ℕ} {size offset : ℕ} {d : Disk}

theorem length_fileRange (d : Disk) (l : List ℕ) (off n : ℕ) : (G.fileRange d l off n).length = n := by
  rw [fileRange, List.length_map, List.length_range]

/-- The bytes of a chain can be counted with 64 bits. -/
theorem IsChain.bytes_le (hG : GeoOk G) {h : ℕ} (hl : G.IsChain d h l) : l.length * G.bytesPerCluster ≤ 2 ^ 41 := by
  have hlen := IsChain.length_lt hl
  rw [hG.lastCluster_eq] at hlen
  have hfits := hG.fits
  have hmul : l.length * G.sectorsPerCluster ≤ G.totalClusters * G.sectorsPerCluster :=
    Nat.mul_le_mul_right _ (by omega)
  rw [hG.bytes, ← Nat.mul_assoc]
  omega

theorem chain_bytes_le (hG : GeoOk G) (hl : node.inode = 0 ∧ l = [] ∨ G.IsChain d node.inode l) :
    l.length * G.bytesPerCluster ≤ 2 ^ 41 := by
  rcases hl with ⟨-, rfl⟩ | hl
  · simp
  · exact hl.bytes_le hG

/-- **Reads**: the bytes are those that the offset and the size name exactly where nothing wraps
around. -/
theorem fatRead_range_iff (hG : GeoOk G) (htype : node.type = .file)
    (hl : node.inode = 0 ∧ l = [] ∨ G.IsChain m.dev node.inode l) (hsize : node.size ≤ l.length * G.bytesPerCluster)
    (hmax : node.size < 2 ^ 32) (hoff : offset < 2 ^ 63) (hbytes : size < 2 ^ 64) :
    fatRead Disk.dev G node size offset m =
      some (some (G.fileRange m.dev l offset (min size (node.size - offset))), m) ↔ G.ReadFits node l size offset := by
  have hcap := chain_bytes_le hG hl
  have hread := fatRead_eq hG size offset htype hl hsize
  unfold ReadFits
  generalize hc : l.length * G.bytesPerCluster = cap at *
  by_cases h32 : offset < 2 ^ 32
  · have hu : u32 offset = offset := u32_of_lt h32
    rw [if_pos h32, hread, hu]
    by_cases hend : node.size ≤ offset
    · rw [if_pos hend, show min size (node.size - offset) = 0 by omega]
      exact ⟨fun _ => Or.inr (Or.inl hend), fun _ => rfl⟩
    rw [if_neg hend]
    by_cases hwrap : offset + size < 2 ^ 64
    · -- the size is cut off at the end of the file
      have hcut : min (readSize node.size size offset) (cap - offset) = min size (node.size - offset) := by
        unfold readSize u64
        rw [Nat.mod_eq_of_lt hwrap]
        split_ifs <;> omega
      rw [hcut]
      exact ⟨fun _ => Or.inl hwrap, fun _ => rfl⟩
    · -- the sum wraps around, and the size stays as it is
      have hcut : min (readSize node.size size offset) (cap - offset) = cap - offset := by
        unfold readSize u64
        split_ifs <;> omega
      rw [hcut, show min size (node.size - offset) = node.size - offset by omega]
      constructor
      · intro heq
        have hlen := congrArg List.length (Option.some.inj (Prod.mk.inj (Option.some.inj heq)).1)
        rw [length_fileRange, length_fileRange] at hlen
        exact Or.inr (Or.inr (by omega))
      · rintro (h | h | h)
        · exact absurd h hwrap
        · exact absurd h hend
        · rw [h]
  · rw [if_neg h32, hread, show min size (node.size - offset) = 0 by omega]
    have hlow := u32_lt offset
    by_cases hend : node.size ≤ u32 offset
    · rw [if_pos hend]
      exact ⟨fun _ => hend, fun _ => rfl⟩
    · -- what is left of the file is negative: a very large size
      rw [if_neg hend]
      refine ⟨fun heq => ?_, fun h => absurd h hend⟩
      have hlen := congrArg List.length (Option.some.inj (Prod.mk.inj (Option.some.inj heq)).1)
      rw [length_fileRange, length_fileRange] at hlen
      unfold readSize u64 at hlen
      split_ifs at hlen <;> omega

/-- **Writes**: no byte below the offset changes, whatever is written, exactly where nothing wraps
around. -/
theorem fatWrite_above_iff (hG : GeoOk G) (hown : ClusterOwnership G m.dev) (hn : FileNode G m.dev node l) :
    (∀ fuel buf, G.lastCluster + 2 ≤ fuel → ∃ r node' m',
      fatWrite Disk.dev G fuel node buf size offset m = some (r, node', m') ∧
        (r = -1 ∨ ∃ l', G.IsChain m'.dev node'.inode l' ∧
          ∀ i < offset, G.fileByte m'.dev l' i = G.fileByte m.dev l i)) ↔ G.WriteFits m.dev l size offset := by
  have hle : u32 offset ≤ offset := Nat.mod_le _ _
  constructor
  · intro hall
    by_contra hnot
    unfold WriteFits at hnot
    push Not at hnot
    obtain ⟨h32, h₀, hroom⟩ := hnot
    have hlt : u32 offset < offset := by
      have := u32_lt offset
      omega
    -- a byte that differs from the one at the low half of the offset
    obtain ⟨r, node', m', hf, hres⟩ :=
      hall (G.lastCluster + 2) (fun _ => G.fileByte m.dev l (u32 offset) + 1) (Nat.le_refl _)
    rcases fatWrite_file hG hown hn hf with ⟨-, hshort⟩ |
      ⟨new, done, hr, -, hdone, hreach, -, hchain, hbytes⟩
    · omega
    have hpos : 0 < done := by
      rcases hdone with hdone | hdone
      · omega
      · by_contra h₀
        have hoff : u32 offset = (l ++ new).length * G.bytesPerCluster := by omega
        rw [hoff, Nat.mul_div_cancel _ hG.bytes_pos] at hreach
        omega
    rcases hres with hres | ⟨l', hchain', hkeep⟩
    · omega
    · obtain rfl := hchain'.unique hchain
      have hbyte := hbytes (u32 offset)
      rw [if_pos ⟨Nat.le_refl _, by omega⟩, hkeep _ hlt] at hbyte
      simp at hbyte
  · intro hfits fuel buf hfuel
    obtain ⟨⟨r, node', m'⟩, hf⟩ := Option.isSome_iff_exists.1 (fatWrite_isSome
      (fatAllocCluster_isSome hG.lastCluster_succ (show G.lastCluster < fuel by omega)) node buf size offset m)
    refine ⟨r, node', m', hf, ?_⟩
    rcases fatWrite_file hG hown hn hf with ⟨hr, -⟩ | ⟨new, done, -, hdone, -, hreach, hroom, hchain, hbytes⟩
    · exact Or.inl hr
    refine Or.inr ⟨_, hchain, fun i hi => ?_⟩
    rw [hbytes, if_neg]
    rcases hfits with h32 | h₀ | hshort
    · rw [u32_of_lt h32]
      omega
    · omega
    · omega

/-- **64-bit offsets.**  For a file of a volume whose chain covers its size, a read gives the bytes
that its offset and size name, and a write changes no byte below its offset, exactly for the
offsets and sizes where nothing wraps around. -/
theorem offsetLaw_iff (G : FatState) (hG : GeoOk G) (m : FatMem Disk) (hown : ClusterOwnership G m.dev)
    (node : FatNode) (l : List ℕ) (hn : FileNode G m.dev node l) (hsize : node.size ≤ l.length * G.bytesPerCluster)
    (hmax : node.size < 2 ^ 32) (size offset : ℕ) (hoff : offset < 2 ^ 63) (hbytes : size < 2 ^ 64) :
    OffsetLaw G m node l size offset ↔ G.ReadFits node l size offset ∧ G.WriteFits m.dev l size offset := by
  rw [← fatRead_range_iff hG hn.type hn.chain hsize hmax hoff hbytes, ← fatWrite_above_iff hG hown hn]
  exact ⟨fun h => ⟨h.read, h.write⟩, fun h => ⟨h.1, h.2⟩⟩

end FatState

open FatState

/-- The hypotheses of `offsetLaw_iff` are satisfiable: three bytes at the position 1 of a file of five
bytes. -/
theorem offsetLaw_iff_small : ∃ m node l, ClusterOwnership smallFat m.dev ∧ FileNode smallFat m.dev node l ∧
    OffsetLaw smallFat m node l 3 1 := by
  obtain ⟨st, hst, x, -, hsize, hn⟩ := fileOfFive_node
  have hown := volRun_ownership hst
  refine ⟨st.mem, _, [2], hown, hn, (offsetLaw_iff smallFat geoOk_smallFat st.mem hown _ [2] hn ?_ ?_ 3 1
    (by decide) (by decide)).2 ⟨?_, Or.inl (by decide)⟩⟩
  · rw [hsize]
    decide
  · omega
  · rw [ReadFits, if_pos (by decide)]
    exact Or.inl (by decide)

/-- **A read of one byte copies 512.**  At the offset `2 ^ 32` of a file of five bytes there is
nothing to read; the whole cluster of the file is copied into the buffer.  A write at this offset
overwrites the byte 0. -/
theorem offset_wraps : ∃ m node l, ClusterOwnership smallFat m.dev ∧ FileNode smallFat m.dev node l ∧
    node.size = 5 ∧ (∃ out, fatRead Disk.dev smallFat node 1 (2 ^ 32) m = some (some out, m) ∧ out.length = 512) ∧
    smallFat.fileByte m.dev l 0 = 1 ∧
    (∃ node' m', fatWrite Disk.dev smallFat 64 node (fun _ => 7) 1 (2 ^ 32) m = some (1, node', m') ∧
      smallFat.fileByte m'.dev l 0 = 7) ∧
    ¬OffsetLaw smallFat m node l 1 (2 ^ 32) := by
  obtain ⟨st, hst, x, hx, hsize, hn⟩ := fileOfFive_node
  have hcover : (nodeOf true 0 [97] x.raw).size ≤ [2].length * smallFat.bytesPerCluster := by
    rw [hsize]
    decide
  have hread := fatRead_eq (m := st.mem) geoOk_smallFat 1 (2 ^ 32) hn.type hn.chain hcover
  have hcut : min (readSize 5 1 (2 ^ 32)) ([2].length * smallFat.bytesPerCluster - u32 (2 ^ 32)) = 512 := by decide
  rw [hsize, if_neg (by decide), hcut] at hread
  have hrun : fileOfFive.any (fun st => (smallFat.keyed st.mem 0 [97]).any fun x =>
      smallFat.fileByte st.mem.dev [2] 0 == 1 &&
        (fatWrite Disk.dev smallFat 64 (nodeOf true 0 [97] x.raw) (fun _ => 7) 1 (2 ^ 32) st.mem).any fun r =>
          r.1 == 1 && smallFat.fileByte r.2.2.dev [2] 0 == 7) = true := by
    decide +kernel
  rw [hst, Option.any_some, hx, Option.any_some, Bool.and_eq_true] at hrun
  obtain ⟨⟨r, node', m'⟩, hwrite, hr⟩ := (Option.any_eq_true _ _).1 hrun.2
  simp only [Bool.and_eq_true, beq_iff_eq] at hr
  obtain ⟨rfl, hbyte⟩ := hr
  refine ⟨st.mem, _, [2], volRun_ownership hst, hn, hsize, ⟨_, hread, length_fileRange _ _ _ _⟩,
    beq_iff_eq.1 hrun.1, ⟨node', m', hwrite, hbyte⟩, fun hlaw => ?_⟩
  have hfits := (fatRead_range_iff geoOk_smallFat hn.type hn.chain hcover (by omega) (by decide) (by decide)).1 hlaw.read
  rw [ReadFits, if_neg (by decide), hsize] at hfits
  exact absurd hfits (by decide)

end LighthOS
