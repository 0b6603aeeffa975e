/-
# The bytes of a file on a FAT volume

The sectors of a disk are one array of bytes (`Disk.flat`), and a cluster is a range of it.
The bytes of a file are those of its clusters, one after the other (`FatState.byteAt`).

`fat_read` gives the bytes of a range (`fatRead_eq`), for every cluster size and every
alignment.  What the loops of `fat_write` do is `Written`: the chain grows by free
clusters, which are cleared, the bytes of the range are those of the buffer, and all
other bytes of the file and all other sectors outside of the table are as before
(`fatWrite_written`).
-/

import LighthOS.Fs.FatChain

namespace LighthOS

/-! ### A disk as an array of bytes -/

namespace Disk

/-- The byte at an address of the disk. -/
def flat (d : Disk) (a : ℕ) : UInt8 := d (a / 512) (a % 512)

/-- Store `n` bytes from the address `a` on. -/
def flatPut (d : Disk) (a n : ℕ) (src : ℕ → UInt8) : Disk := fun lba i =>
  if i < 512 ∧ a ≤ lba * 512 + i ∧ lba * 512 + i < a + n then src (lba * 512 + i - a) else d lba i

variable {d : Disk} {a n : ℕ} {src : ℕ → UInt8}

theorem flat_flatPut (x : ℕ) :
    (d.flatPut a n src).flat x = if a ≤ x ∧ x < a + n then src (x - a) else d.flat x := by
  have hx : x / 512 * 512 + x % 512 = x := Nat.div_add_mod' x 512
  have hlt := Nat.mod_lt x (show 512 > 0 by decide)
  unfold flat flatPut
  simp only [hx, hlt, true_and]

theorem flatPut_zero : d.flatPut a 0 src = d := by
  funext lba i
  exact if_neg (by omega)

/-- Two stores, one behind the other, are one. -/
theorem flatPut_flatPut {k : ℕ} :
    (d.flatPut a n src).flatPut (a + n) k (fun i => src (n + i)) = d.flatPut a (n + k) src := by
  funext lba i
  unfold flatPut
  by_cases h₁ : i < 512 ∧ a + n ≤ lba * 512 + i ∧ lba * 512 + i < a + n + k
  · rw [if_pos h₁, if_pos (by omega)]
    exact congrArg src (by omega)
  · rw [if_neg h₁]
    by_cases h₂ : i < 512 ∧ a ≤ lba * 512 + i ∧ lba * 512 + i < a + n
    · rw [if_pos h₂, if_pos (by omega)]
    · rw [if_neg h₂, if_neg (by omega)]

/-- A store to a part of a sector. -/
theorem update_put {lba off : ℕ} (h : off + n ≤ 512) :
    Function.update d lba ((d lba).put off n src) = d.flatPut (lba * 512 + off) n src := by
  funext x i
  unfold flatPut
  by_cases hx : x = lba
  · subst hx
    rw [Function.update_self]
    unfold Sector.put
    by_cases hi : off ≤ i ∧ i < off + n
    · rw [if_pos hi, if_pos (by omega)]
      congr 1
      omega
    · rw [if_neg hi, if_neg (by omega)]
  · rw [Function.update_of_ne hx, if_neg (by omega)]

end Disk

/-! ### The clusters of a file -/

namespace FatState

/-- The address at which a cluster starts. -/
def clusterBase (G : FatState) (c : ℕ) : ℕ := G.fatClusterToLba c * 512

/-- The address of a byte of the file with the given clusters. -/
def addr (G : FatState) (l : List ℕ) (i : ℕ) : ℕ :=
  G.clusterBase (l.getD (i / G.bytesPerCluster) 0) + i % G.bytesPerCluster

/-- A byte of the file with the given clusters. -/
def byteAt (G : FatState) (d : Disk) (l : List ℕ) (i : ℕ) : UInt8 := d.flat (G.addr l i)

variable {G : FatState} {c x : ℕ} {d d' : Disk} {l l' new : List ℕ}

section Geo

variable (hG : GeoOk G)
include hG

/-- The sector of an address in a cluster. -/
theorem clusterBase_div (hc : G.Valid c) {j : ℕ} (hj : j < G.bytesPerCluster) :
    (G.clusterBase c + j) / 512 ∈ G.clusterLbas c ∧ (G.clusterBase c + j) % 512 = j % 512 := by
  have hb := hG.bytes
  have hlba := hG.fatClusterToLba_eq hc
  unfold clusterBase
  refine ⟨(hG.mem_clusterLbas hc).2 ⟨j / 512, by omega, by omega⟩, by omega⟩

theorem flat_congr_cluster (hc : G.Valid c) (h : ∀ lba ∈ G.clusterLbas c, d' lba = d lba) {j : ℕ}
    (hj : j < G.bytesPerCluster) : d'.flat (G.clusterBase c + j) = d.flat (G.clusterBase c + j) := by
  unfold Disk.flat
  rw [h _ (clusterBase_div hG hc hj).1]

/-- Addresses in clusters are different for different bytes. -/
theorem clusterBase_inj (hc : G.Valid c) (hx : G.Valid x) {i j : ℕ} (hi : i < G.bytesPerCluster)
    (hj : j < G.bytesPerCluster) (h : G.clusterBase c + i = G.clusterBase x + j) : c = x ∧ i = j := by
  have hcx : c = x := by
    refine hG.cluster_unique hc hx (clusterBase_div hG hc hi).1 ?_
    rw [h]
    exact (clusterBase_div hG hx hj).1
  subst hcx
  exact ⟨rfl, by omega⟩

/-- The cluster of a byte. -/
theorem getD_index {i : ℕ} (hi : i < l.length * G.bytesPerCluster) :
    i / G.bytesPerCluster < l.length ∧ l.getD (i / G.bytesPerCluster) 0 ∈ l ∧
      i % G.bytesPerCluster < G.bytesPerCluster := by
  have hlt : i / G.bytesPerCluster < l.length := Nat.div_lt_of_lt_mul (by rwa [Nat.mul_comm])
  refine ⟨hlt, ?_, Nat.mod_lt _ hG.bytes_pos⟩
  rw [List.getD_eq_getElem?_getD, List.getElem?_eq_getElem hlt]
  exact List.getElem_mem hlt

/-- A byte only depends on the sectors of the clusters. -/
theorem byteAt_congr (hv : ∀ c ∈ l, G.Valid c) (h : ∀ lba, G.InClusters l lba → d' lba = d lba) {i : ℕ}
    (hi : i < l.length * G.bytesPerCluster) : G.byteAt d' l i = G.byteAt d l i := by
  obtain ⟨-, hmem, hlt⟩ := getD_index hG hi
  exact flat_congr_cluster hG (hv _ hmem) (fun lba hlba => h lba ⟨_, hmem, hlba⟩) hlt

theorem byteAt_append_left {i : ℕ} (hi : i < l.length * G.bytesPerCluster) :
    G.byteAt d (l ++ new) i = G.byteAt d l i := by
  obtain ⟨hlt, -, -⟩ := getD_index hG hi
  unfold byteAt addr
  rw [List.getD_eq_getElem?_getD, List.getD_eq_getElem?_getD, List.getElem?_append_left hlt]

/-- The bytes of clusters that are cleared. -/
theorem byteAt_zero (hv : ∀ c ∈ l, G.Valid c) {i : ℕ} (hi : i < l.length * G.bytesPerCluster)
    (h : ∀ lba ∈ G.clusterLbas (l.getD (i / G.bytesPerCluster) 0), d lba = zeroSector) : G.byteAt d l i = 0 := by
  obtain ⟨-, hmem, hlt⟩ := getD_index hG hi
  unfold byteAt addr Disk.flat
  rw [h _ (clusterBase_div hG (hv _ hmem) hlt).1]
  rfl

/-- **A store to a part of one cluster of a file**, seen as a store to its bytes. -/
theorem byteAt_flatPut (hv : ∀ c ∈ l, G.Valid c) (hn : l.Nodup) {k off n : ℕ} {src : ℕ → UInt8}
    (hk : l[k]? = some c) (hoff : off + n ≤ G.bytesPerCluster) {i : ℕ} (hi : i < l.length * G.bytesPerCluster) :
    G.byteAt (d.flatPut (G.clusterBase c + off) n src) l i =
      if k * G.bytesPerCluster + off ≤ i ∧ i < k * G.bytesPerCluster + off + n then
        src (i - (k * G.bytesPerCluster + off))
      else G.byteAt d l i := by
  obtain ⟨hlt, hmem, hmod⟩ := getD_index hG hi
  obtain ⟨hk', hkc⟩ := List.getElem?_eq_some_iff.1 hk
  have hcv : G.Valid c := hv c (List.mem_of_getElem? hk)
  have hdiv := Nat.div_add_mod' i G.bytesPerCluster
  unfold byteAt addr
  rw [Disk.flat_flatPut]
  generalize hq : i / G.bytesPerCluster = q at *
  generalize hr : i % G.bytesPerCluster = r at *
  have hget : l.getD q 0 = l.get ⟨q, hlt⟩ := by
    rw [List.getD_eq_getElem?_getD, List.getElem?_eq_getElem hlt]
    rfl
  by_cases hqk : q = k
  · subst hqk
    have hc : l.getD q 0 = c := by rw [hget]; exact hkc
    rw [hc]
    by_cases hin : off ≤ r ∧ r < off + n
    · rw [if_pos (by omega), if_pos (by omega)]
      congr 1
      omega
    · rw [if_neg (by omega), if_neg (by omega)]
  · -- another cluster of the file
    have hne : l.getD q 0 ≠ c := by
      rw [hget, ← hkc]
      intro he
      exact hqk ((List.Nodup.getElem_inj_iff hn).1 he)
    rw [if_neg, if_neg]
    · rintro ⟨h₁, h₂⟩
      rcases Nat.lt_or_ge q k with hlt' | hge
      · have := Nat.mul_le_mul_right G.bytesPerCluster (show q + 1 ≤ k from hlt')
        rw [Nat.add_mul, Nat.one_mul] at this
        omega
      · have := Nat.mul_le_mul_right G.bytesPerCluster (show k + 1 ≤ q by omega)
        rw [Nat.add_mul, Nat.one_mul] at this
        omega
    · rintro ⟨h₁, h₂⟩
      obtain ⟨hcl, -⟩ := clusterBase_inj hG (hv _ hmem) hcv hmod
        (show G.clusterBase (l.getD q 0) + r - G.clusterBase c < G.bytesPerCluster by omega) (by omega)
      exact hne hcl

/-- A store to a part of a cluster changes its sectors only. -/
theorem flatPut_outside (hc : G.Valid c) {off n : ℕ} {src : ℕ → UInt8} (hoff : off + n ≤ G.bytesPerCluster)
    {lba : ℕ} (h : lba ∉ G.clusterLbas c) : d.flatPut (G.clusterBase c + off) n src lba = d lba := by
  funext i
  refine if_neg ?_
  rintro ⟨hi, h₁, h₂⟩
  have hmem := (clusterBase_div hG hc (j := lba * 512 + i - G.clusterBase c) (by omega)).1
  rw [show G.clusterBase c + (lba * 512 + i - G.clusterBase c) = lba * 512 + i by omega,
    show (lba * 512 + i) / 512 = lba by omega] at hmem
  exact h hmem

end Geo

/-! ### Writing -/

/-- What the loops of `fat_write` have done so far: from `d` to `d'` the free clusters `new` were
put behind the clusters `l` of the file, and `n` bytes were written from the position `off` on. -/
structure Written (G : FatState) (d d' : Disk) (h : ℕ) (l new : List ℕ) (off n : ℕ) (src : ℕ → UInt8) :
    Prop where
  chain : G.IsChain d' h (l ++ new)
  free : ∀ c ∈ new, G.Valid c ∧ G.entryAt d c = 0
  entries : ∀ x, G.Valid x → x ∉ l ++ new → G.entryAt d' x = G.entryAt d x
  sectors : ∀ lba, ¬G.InTable lba → ¬G.InClusters (l ++ new) lba → d' lba = d lba
  inside : n = 0 ∨ off + n ≤ (l ++ new).length * G.bytesPerCluster
  bytes : ∀ i < (l ++ new).length * G.bytesPerCluster, G.byteAt d' (l ++ new) i =
    if off ≤ i ∧ i < off + n then src (i - off)
    else if i < l.length * G.bytesPerCluster then G.byteAt d l i else 0

variable {h off n : ℕ} {src : ℕ → UInt8} {d₀ : Disk}

section Geo

variable (hG : GeoOk G)
include hG

/-- The bytes of a file whose chain grows. -/
theorem Grown.bytes (hg : Grown G d d' h l new) {i : ℕ} (hi : i < (l ++ new).length * G.bytesPerCluster) :
    G.byteAt d' (l ++ new) i = if i < l.length * G.bytesPerCluster then G.byteAt d l i else 0 := by
  have hv : ∀ c ∈ l ++ new, G.Valid c := fun c hc => IsChain.valid hg.chain hc
  by_cases hil : i < l.length * G.bytesPerCluster
  · rw [if_pos hil, byteAt_append_left hG hil]
    refine byteAt_congr hG (fun c hc => hv c (List.mem_append_left _ hc)) (fun lba hlba => ?_) hil
    obtain ⟨c, hc, hmem⟩ := hlba
    have hcv := hv c (List.mem_append_left _ hc)
    refine hg.sectors lba (hG.cluster_not_inTable hcv hmem) ?_
    rintro ⟨x, hx, hmem'⟩
    obtain rfl := hG.cluster_unique hcv (hg.free x hx).1 hmem hmem'
    exact (List.nodup_append.1 hg.chain.nodup).2.2 c hc c hx rfl
  · rw [if_neg hil]
    refine byteAt_zero hG hv hi fun lba hlba => hg.zero lba ⟨_, ?_, hlba⟩
    obtain ⟨hlt, -, -⟩ := getD_index hG hi
    have hge : l.length ≤ i / G.bytesPerCluster := (Nat.le_div_iff_mul_le hG.bytes_pos).2 (by omega)
    rw [List.getD_eq_getElem?_getD, List.getElem?_append_right hge, List.getElem?_eq_getElem (by
      rw [List.length_append] at hlt
      omega)]
    exact List.getElem_mem _

/-- Before the first byte is written. -/
theorem Grown.written (hg : Grown G d d' h l new) : Written G d d' h l new off 0 src where
  chain := hg.chain
  free := hg.free
  entries := hg.entries
  sectors := fun lba ht hlba => hg.sectors lba ht fun ⟨c, hc, hm⟩ => hlba ⟨c, List.mem_append_right _ hc, hm⟩
  inside := Or.inl rfl
  bytes := fun i hi => by rw [hg.bytes hG hi, if_neg (show ¬(off ≤ i ∧ i < off + 0) by omega)]

/-- The first cluster of an empty file. -/
theorem written_claim (hc : G.Valid c) (hfree : G.entryAt d c = 0) :
    Written G d (G.claim d c) c [] [c] off 0 src where
  chain := isChain_claim hG hc
  free := fun y hy => by
    obtain rfl := List.mem_singleton.1 hy
    exact ⟨hc, hfree⟩
  entries := fun y hy hyc => by rw [entryAt_claim hG hc hy, if_neg (by simpa using hyc)]
  sectors := fun lba ht hlba => claim_of_notMem hG hc (fun hm => hlba ⟨c, by simp, hm⟩) ht
  inside := Or.inl rfl
  bytes := fun i hi => by
    rw [if_neg (show ¬(off ≤ i ∧ i < off + 0) by omega), if_neg (by simp)]
    refine byteAt_zero hG (by simpa using hc) hi fun lba hlba => claim_of_mem ?_
    obtain ⟨-, hmem, -⟩ := getD_index hG hi
    rwa [List.mem_singleton.1 hmem] at hlba

/-- The chain grows further. -/
theorem Written.grown (hw : Written G d₀ d h l new off n src) {new' : List ℕ}
    (hg : Grown G d d' h (l ++ new) new') : Written G d₀ d' h l (new ++ new') off n src := by
  have hfree : ∀ c ∈ new', G.Valid c ∧ c ∉ l ++ new := by
    intro c hc
    obtain ⟨hv, h₀⟩ := hg.free c hc
    exact ⟨hv, fun hmem => (hw.chain.used c hmem).2 h₀⟩
  have hlen : (l ++ new).length * G.bytesPerCluster ≤ (l ++ (new ++ new')).length * G.bytesPerCluster := by
    refine Nat.mul_le_mul_right _ ?_
    simp only [List.length_append]
    omega
  have hlen' : l.length * G.bytesPerCluster ≤ (l ++ new).length * G.bytesPerCluster := by
    refine Nat.mul_le_mul_right _ ?_
    simp only [List.length_append]
    omega
  refine ⟨by rw [← List.append_assoc]; exact hg.chain, fun c hc => ?_, fun x hx hxl => ?_, fun lba ht hlba => ?_,
    hw.inside.imp_right (·.trans hlen), fun i hi => ?_⟩
  · rcases List.mem_append.1 hc with hc | hc
    · exact hw.free c hc
    · rw [← hw.entries c (hfree c hc).1 (hfree c hc).2]
      exact hg.free c hc
  · rw [← List.append_assoc, List.mem_append, not_or] at hxl
    rw [hg.entries x hx (by rw [List.mem_append, not_or]; exact hxl), hw.entries x hx hxl.1]
  · rw [← List.append_assoc] at hlba
    have hboth : ¬G.InClusters (l ++ new) lba ∧ ¬G.InClusters new' lba :=
      ⟨fun ⟨c, hc, hm⟩ => hlba ⟨c, List.mem_append_left _ hc, hm⟩,
        fun ⟨c, hc, hm⟩ => hlba ⟨c, List.mem_append_right _ hc, hm⟩⟩
    rw [hg.sectors lba ht hboth.2, hw.sectors lba ht hboth.1]
  · rw [← List.append_assoc] at hi ⊢
    rw [hg.bytes hG hi]
    by_cases hold : i < (l ++ new).length * G.bytesPerCluster
    · rw [if_pos hold, hw.bytes i hold]
    · rw [if_neg hold, if_neg (by rcases hw.inside with h₀ | h₀ <;> omega), if_neg (by omega)]

/-- More bytes are written, up to the end of a cluster. -/
theorem Written.put (hw : Written G d₀ d h l new off n src) {k clusterOff len : ℕ}
    (hk : (l ++ new)[k]? = some c) (hpos : off + n = k * G.bytesPerCluster + clusterOff)
    (hlen : clusterOff + len ≤ G.bytesPerCluster) :
    Written G d₀ (d.flatPut (G.clusterBase c + clusterOff) len fun i => src (n + i)) h l new off (n + len)
      src := by
  have hv : ∀ c ∈ l ++ new, G.Valid c := fun c hc => IsChain.valid hw.chain hc
  have hc := List.mem_of_getElem? hk
  have hout : ∀ lba, lba ∉ G.clusterLbas c →
      d.flatPut (G.clusterBase c + clusterOff) len (fun i => src (n + i)) lba = d lba :=
    fun lba => flatPut_outside hG (hv c hc) hlen
  have hentry : ∀ x, G.Valid x →
      G.entryAt (d.flatPut (G.clusterBase c + clusterOff) len fun i => src (n + i)) x = G.entryAt d x :=
    fun x hx => hG.entryAt_outside (fun lba ht => hout lba fun hm => hG.cluster_not_inTable (hv c hc) hm ht) hx.2
  have hk' := (List.getElem?_eq_some_iff.1 hk).1
  have hend : (k + 1) * G.bytesPerCluster ≤ (l ++ new).length * G.bytesPerCluster := Nat.mul_le_mul_right _ hk'
  rw [Nat.add_mul, Nat.one_mul] at hend
  refine ⟨IsChain.congr hw.chain fun x hx => hentry x (hv x hx), hw.free, fun x hx hxl => ?_,
    fun lba ht hlba => ?_, Or.inr (by omega), fun i hi => ?_⟩
  · rw [hentry x hx, hw.entries x hx hxl]
  · rw [hout lba fun hm => hlba ⟨c, hc, hm⟩, hw.sectors lba ht hlba]
  · rw [byteAt_flatPut hG hv hw.chain.nodup hk hlen hi, hw.bytes i hi]
    by_cases hnew : k * G.bytesPerCluster + clusterOff ≤ i ∧ i < k * G.bytesPerCluster + clusterOff + len
    · rw [if_pos hnew, if_pos (by omega)]
      exact congrArg src (by omega)
    · rw [if_neg hnew]
      by_cases hold : off ≤ i ∧ i < off + n
      · rw [if_pos hold, if_pos (by omega)]
      · rw [if_neg hold, if_neg (show ¬(off ≤ i ∧ i < off + (n + len)) by omega)]

end Geo

end FatState

open FatState

variable {G : FatState} {h c off n : ℕ} {l new : List ℕ} {d d' d₀ : Disk} {m m' : FatMem Disk}
  {buf : ℕ → UInt8} {size : ℕ}

/-- **The loop of `fat_write` over the sectors of a cluster** writes up to its end. -/
theorem writeSlices_eq (buf : ℕ → UInt8) (hG : GeoOk G) (hc : G.Valid c) {clusterOff : ℕ} (hoff : clusterOff < G.bytesPerCluster)
    (k s done : ℕ) (m : FatMem Disk) (hs : s + k = G.sectorsPerCluster) (hdone : done ≤ size) :
    (Loop.run (writeSlice Disk.dev buf size (G.fatClusterToLba c) clusterOff) (List.range' s k)
      (true, done, m)).map Prod.snd =
    some (true, done + min (size - done) (G.bytesPerCluster - max clusterOff (s * 512)),
      ⟨m.dev.flatPut (G.clusterBase c + max clusterOff (s * 512))
        (min (size - done) (G.bytesPerCluster - max clusterOff (s * 512))) fun i => buf (done + i), m.lfn⟩) := by
  have hbytes := hG.bytes
  induction k generalizing s done m with
  | zero =>
      have hzero : min (size - done) (G.bytesPerCluster - max clusterOff (s * 512)) = 0 := by omega
      rw [hzero, Disk.flatPut_zero]
      rfl
  | succ k ih =>
      rw [List.range'_succ, Loop.run, writeSlice]
      simp only [readSector_disk, writeSector_disk]
      by_cases hfull : size ≤ done
      · have hzero : min (size - done) (G.bytesPerCluster - max clusterOff (s * 512)) = 0 := by omega
        rw [if_pos hfull, hzero, Disk.flatPut_zero]
        rfl
      rw [if_neg hfull]
      by_cases hskip : s * 512 + 512 ≤ clusterOff
      · have hmax : max clusterOff ((s + 1) * 512) = max clusterOff (s * 512) := by omega
        rw [if_pos hskip]
        simp only
        rw [ih (s + 1) done m (by omega) hdone, hmax]
      rw [if_neg hskip]
      simp only
      have hlba := hG.sectorLba_eq hc (s := s) (by omega)
      have hbase := hG.fatClusterToLba_eq hc
      generalize hchunk : min (512 - (clusterOff - s * 512)) (size - done) = chunk
      have hput : Function.update m.dev (u32 (G.fatClusterToLba c + s))
          ((m.dev (u32 (G.fatClusterToLba c + s))).put (clusterOff - s * 512) chunk fun i => buf (done + i)) =
          m.dev.flatPut (G.clusterBase c + max clusterOff (s * 512)) chunk fun i => buf (done + i) := by
        have haddr : u32 (G.fatClusterToLba c + s) * 512 + (clusterOff - s * 512) =
            G.clusterBase c + max clusterOff (s * 512) := by
          unfold clusterBase
          rw [hlba, hbase]
          omega
        rw [Disk.update_put (by omega), haddr]
      rw [hput, ih (s + 1) (done + chunk) _ (by omega) (by omega)]
      generalize hrest : min (size - (done + chunk)) (G.bytesPerCluster - max clusterOff ((s + 1) * 512)) = rest
      have hsum : min (size - done) (G.bytesPerCluster - max clusterOff (s * 512)) = chunk + rest := by omega
      -- the store of this sector and those of the sectors behind it are one
      have hstores : (m.dev.flatPut (G.clusterBase c + max clusterOff (s * 512)) chunk
            fun i => buf (done + i)).flatPut (G.clusterBase c + max clusterOff ((s + 1) * 512)) rest
              (fun i => buf (done + chunk + i)) =
          m.dev.flatPut (G.clusterBase c + max clusterOff (s * 512)) (chunk + rest) fun i => buf (done + i) := by
        by_cases h₀ : rest = 0
        · rw [h₀, Disk.flatPut_zero, Nat.add_zero]
        · have hnext : G.clusterBase c + max clusterOff ((s + 1) * 512) =
              G.clusterBase c + max clusterOff (s * 512) + chunk := by omega
          rw [hnext, ← Disk.flatPut_flatPut]
          simp only [Nat.add_assoc]
      rw [hsum, hstores, Nat.add_assoc]

/-- **The loop of `fat_write` over the clusters** writes everything, or until no cluster is free. -/
theorem writeClusters_written (hG : GeoOk G) {fuel rounds k cluster clusterOff done done' : ℕ} {ok : Bool}
    (hw : Written G d₀ m.dev h l new off done buf) (hk : (l ++ new)[k]? = some cluster)
    (hpos : off + done = k * G.bytesPerCluster + clusterOff) (hoff : clusterOff < G.bytesPerCluster)
    (hdone : done ≤ size) (hrounds : G.lastCluster < rounds + k)
    (hf : writeClusters Disk.dev G fuel buf size rounds cluster clusterOff done m = some (ok, done', m')) :
    ok = true ∧ m'.lfn = m.lfn ∧ done' ≤ size ∧ ∃ new', Written G d₀ m'.dev h l new' off done' buf ∧
      k < (l ++ new').length ∧
      (done' = size ∨ G.firstFree m'.dev = none ∧ off + done' = (l ++ new').length * G.bytesPerCluster) := by
  induction rounds generalizing k cluster clusterOff done new m with
  | zero =>
      have hlen := IsChain.length_lt hw.chain
      have hk' := (List.getElem?_eq_some_iff.1 hk).1
      omega
  | succ rounds ih =>
      have hv : G.Valid cluster := IsChain.valid hw.chain (List.mem_of_getElem? hk)
      have hlt := (List.getElem?_eq_some_iff.1 hk).1
      rw [writeClusters] at hf
      by_cases hfull : size ≤ done
      · rw [if_pos (Or.inl hfull)] at hf
        obtain ⟨rfl, heq⟩ := Prod.mk.inj (Option.some.inj hf)
        obtain ⟨rfl, rfl⟩ := Prod.mk.inj heq
        exact ⟨rfl, rfl, hdone, new, hw, hlt, Or.inl (by omega)⟩
      rw [if_neg (by omega)] at hf
      obtain ⟨⟨b, r⟩, hrun, hrest⟩ := Option.bind_eq_some_iff.1 hf
      clear hf
      have hslices := writeSlices_eq buf hG hv hoff G.sectorsPerCluster 0 done m (by omega) hdone
      rw [← List.range_eq_range', hrun, Option.map_some, Option.some.injEq, Nat.zero_mul, Nat.max_zero] at hslices
      simp only at hslices
      subst hslices
      generalize hlen : min (size - done) (G.bytesPerCluster - clusterOff) = len at hrest
      have hw' := hw.put hG hk hpos (show clusterOff + len ≤ G.bytesPerCluster by omega)
      generalize hm₁ : m.dev.flatPut (G.clusterBase cluster + clusterOff) len (fun i => buf (done + i)) = d₁
        at hrest hw'
      simp only [Bool.not_true, Bool.false_eq_true, if_false] at hrest
      by_cases hfull' : size ≤ done + len
      · rw [if_pos hfull', writeClusters_done _ _ _ _ _ _ hfull'] at hrest
        obtain ⟨rfl, heq⟩ := Prod.mk.inj (Option.some.inj hrest)
        obtain ⟨rfl, rfl⟩ := Prod.mk.inj heq
        exact ⟨rfl, rfl, by omega, new, hw', hlt, Or.inl (by omega)⟩
      rw [if_neg hfull'] at hrest
      simp only [fatNextCluster_disk, IsChain.next_getElem? hw'.chain hk] at hrest
      have hpos' : off + (done + len) = (k + 1) * G.bytesPerCluster + 0 := by
        rw [Nat.add_mul, Nat.one_mul]
        omega
      cases hnext : (l ++ new)[k + 1]? with
      | some y =>
          have hy : G.Valid y := IsChain.valid hw.chain (List.mem_of_getElem? hnext)
          rw [hnext, Option.getD_some, if_pos (by have := hy.1; omega)] at hrest
          obtain ⟨hok, hlfn, hle, new', hw'', hlt', hend⟩ :=
            ih (m := ⟨d₁, m.lfn⟩) hw' hnext hpos' hG.bytes_pos (by omega) (by omega) hrest
          exact ⟨hok, hlfn, hle, new', hw'', by omega, hend⟩
      | none =>
          simp only [hnext, Option.getD_none, ne_eq, not_true_eq_false, if_false] at hrest
          obtain ⟨⟨nc, m₁⟩, halloc, hgo⟩ := Option.bind_eq_some_iff.1 hrest
          clear hrest
          have halloc := fatAllocCluster_some hG.lastCluster_succ halloc
          obtain ⟨l₀, hl₀, hlen₀⟩ := eq_concat_of_getElem? hk hnext
          cases hfree : G.firstFree d₁ with
          | none =>
              rw [hfree] at halloc
              obtain ⟨rfl, rfl⟩ := Prod.mk.inj halloc
              obtain ⟨rfl, heq⟩ := Prod.mk.inj (Option.some.inj hgo)
              obtain ⟨rfl, rfl⟩ := Prod.mk.inj heq
              have hend : (l ++ new).length = k + 1 := by rw [hl₀, List.length_append, hlen₀, List.length_singleton]
              exact ⟨rfl, rfl, by omega, new, hw', hlt, Or.inr ⟨hfree, by rw [hend, hpos', Nat.add_zero]⟩⟩
          | some y =>
              rw [hfree] at halloc
              obtain ⟨rfl, rfl⟩ := Prod.mk.inj halloc
              obtain ⟨h₂, hle, h₀⟩ := freeFrom_eq_some hfree
              simp only [fatSetCluster_disk, if_neg (show nc ≠ 0 by omega)] at hgo
              have hchain := hw'.chain
              rw [hl₀] at hchain
              have hgrow := grown_link hG hchain ⟨h₂, hle⟩ h₀
              rw [← hl₀] at hgrow
              have hnew : (l ++ (new ++ [nc]))[k + 1]? = some nc := by
                rw [← List.append_assoc, hl₀, List.getElem?_append_right (by simp [hlen₀])]
                simp [hlen₀]
              obtain ⟨hok, hlfn, hle, new', hw'', hlt', hend⟩ :=
                ih (m := ⟨G.setEntry (G.claim d₁ nc) cluster nc, m.lfn⟩) (hw'.grown hG hgrow) hnew hpos'
                  hG.bytes_pos (by omega) (by omega) hgo
              exact ⟨hok, hlfn, hle, new', hw'', by omega, hend⟩

/-- **`fat_write`** of a file with the clusters `l`: nothing could be allocated (`-1`), or as many
bytes as the result says are written, and the entry of the directory is stored. -/
theorem fatWrite_written (hG : GeoOk G) {fuel offset : ℕ} {node node' : FatNode} {r : ℤ}
    (htype : node.type = .file) (hl : node.inode = 0 ∧ l = [] ∨ G.IsChain m.dev node.inode l)
    (hf : fatWrite Disk.dev G fuel node buf size offset m = some (r, node', m')) :
    (r = -1 ∧ G.firstFree m'.dev = none ∧ m'.lfn = m.lfn ∧ (m' = m ∧ node.inode = 0 ∨
      ∃ h new, (node.inode ≠ 0 → h = node.inode) ∧ Written G m.dev m'.dev h l new (u32 offset) 0 buf ∧
        (l ++ new).length ≤ u32 offset / G.bytesPerCluster)) ∨
    ∃ (h : ℕ) (new : List ℕ) (done : ℕ) (d₁ : Disk), r = (done : ℤ) ∧ node'.inode = h ∧
      (node.inode ≠ 0 → h = node.inode) ∧ Written G m.dev d₁ h l new (u32 offset) done buf ∧ done ≤ size ∧
      u32 offset / G.bytesPerCluster < (l ++ new).length ∧
      (done = size ∨ G.firstFree d₁ = none ∧ u32 offset + done = (l ++ new).length * G.bytesPerCluster) ∧
      fatFlushDirent Disk.dev G node.parent node.name (max node.size (u32 (u32 offset + done))) h ⟨d₁, m.lfn⟩ =
        some m' := by
  unfold fatWrite at hf
  rw [if_neg (fun h => h htype)] at hf
  obtain ⟨⟨h, m₁⟩, hfirst, hskip⟩ := Option.bind_eq_some_iff.1 hf
  clear hf
  -- the first cluster of the file
  have hstart : h = 0 ∧ m₁ = m ∧ node.inode = 0 ∧ G.firstFree m.dev = none ∨
      h ≠ 0 ∧ m₁.lfn = m.lfn ∧ (node.inode ≠ 0 → h = node.inode) ∧
        ∃ new, Written G m.dev m₁.dev h l new (u32 offset) 0 buf := by
    unfold firstOrNew at hfirst
    rcases hl with ⟨h₀, rfl⟩ | hl
    · rw [if_pos h₀] at hfirst
      have halloc := fatAllocCluster_some hG.lastCluster_succ hfirst
      cases hfree : G.firstFree m.dev with
      | none =>
          rw [hfree] at halloc
          obtain ⟨rfl, rfl⟩ := Prod.mk.inj halloc
          exact Or.inl ⟨rfl, rfl, h₀, rfl⟩
      | some c =>
          rw [hfree] at halloc
          obtain ⟨rfl, rfl⟩ := Prod.mk.inj halloc
          obtain ⟨h₂, hle, hzero⟩ := freeFrom_eq_some hfree
          exact Or.inr ⟨by omega, rfl, fun hne => absurd h₀ hne, [h], written_claim hG ⟨h₂, hle⟩ hzero⟩
    · have hv : G.Valid node.inode := IsChain.valid hl hl.head_mem
      rw [if_neg (by have := hv.1; omega)] at hfirst
      obtain ⟨rfl, rfl⟩ := Prod.mk.inj (Option.some.inj hfirst)
      exact Or.inr ⟨by have := hv.1; omega, rfl, fun _ => rfl, [], (Grown.refl hl).written hG⟩
  rcases hstart with ⟨rfl, rfl, h₀, hfree⟩ | ⟨hne, hlfn₁, hinode, new₁, hw₁⟩
  · obtain ⟨rfl, heq⟩ := Prod.mk.inj (Option.some.inj hskip)
    obtain ⟨-, rfl⟩ := Prod.mk.inj heq
    exact Or.inl ⟨rfl, hfree, rfl, Or.inl ⟨rfl, h₀⟩⟩
  simp only [if_neg hne] at hskip
  obtain ⟨⟨c, m₂⟩, hwalk, hloop⟩ := Option.bind_eq_some_iff.1 hskip
  clear hskip
  rw [fatSkip_eq] at hwalk
  have hhead : (l ++ new₁)[0]? = some h := by
    obtain ⟨rest, hrest⟩ := hw₁.chain.eq_cons
    rw [hrest]
    rfl
  obtain ⟨new₂, hg, hlfn₂, hc⟩ := fatWalkChain_grown hG hw₁.chain hhead hwalk
  have hw₂ := hw₁.grown hG hg
  have hlfn : m₂.lfn = m.lfn := hlfn₂.trans hlfn₁
  rw [Nat.zero_add] at hc
  rcases hc with hc | ⟨rfl, hfree, hshort⟩
  · have hv : G.Valid c := IsChain.valid hg.chain (List.mem_of_getElem? hc)
    simp only [if_neg (show c ≠ 0 by have := hv.1; omega)] at hloop
    obtain ⟨⟨ok, done, m₃⟩, hwrite, hflush⟩ := Option.bind_eq_some_iff.1 hloop
    clear hloop
    rw [hG.rounds_eq] at hwrite
    have hpos : u32 offset + 0 = u32 offset / G.bytesPerCluster * G.bytesPerCluster + u32 offset % G.bytesPerCluster := by
      rw [Nat.add_zero, Nat.div_add_mod']
    rw [List.append_assoc] at hc
    obtain ⟨rfl, hlfn₃, hle, new₃, hw₃, hlt, hdone⟩ := writeClusters_written hG hw₂ hc hpos
      (Nat.mod_lt _ hG.bytes_pos) (Nat.zero_le _) (Nat.lt_add_right _ (Nat.lt_succ_self _)) hwrite
    simp only [Bool.not_true, Bool.false_eq_true, if_false] at hflush
    obtain ⟨m₄, hm₄, hout⟩ := Option.bind_eq_some_iff.1 hflush
    obtain ⟨rfl, heq⟩ := Prod.mk.inj (Option.some.inj hout)
    obtain ⟨rfl, rfl⟩ := Prod.mk.inj heq
    refine Or.inr ⟨h, new₃, done, m₃.dev, rfl, rfl, hinode, hw₃, hle, hlt, hdone, ?_⟩
    rw [← hlfn, ← hlfn₃]
    exact hm₄
  · obtain ⟨rfl, heq⟩ := Prod.mk.inj (Option.some.inj hloop)
    obtain ⟨-, rfl⟩ := Prod.mk.inj heq
    rw [List.append_assoc] at hshort
    exact Or.inl ⟨rfl, hfree, hlfn, Or.inr ⟨h, _, hinode, hw₂, hshort⟩⟩

/-! ### Reading -/

/-- A range of the bytes of the disk. -/
def Disk.range (d : Disk) (a n : ℕ) : Bytes := (List.range n).map fun i => d.flat (a + i)

theorem Disk.range_add (d : Disk) (a n k : ℕ) : d.range a (n + k) = d.range a n ++ d.range (a + n) k := by
  unfold Disk.range
  rw [List.range_add, List.map_append, List.map_map]
  exact congrArg _ (List.map_congr_left fun i _ => by rw [Function.comp_apply, Nat.add_assoc])

/-- **The loop of `fat_read` over the sectors of a cluster** reads up to its end. -/
theorem readSlices_eq (hG : GeoOk G) (hc : G.Valid c) {clusterOff : ℕ} (hoff : clusterOff < G.bytesPerCluster)
    (size k s : ℕ) (out : Bytes) (m : FatMem Disk) (hs : s + k = G.sectorsPerCluster) :
    (Loop.run (readSlice Disk.dev size (G.fatClusterToLba c) clusterOff) (List.range' s k)
      (true, out, m)).map Prod.snd =
    some (true, out ++ m.dev.range (G.clusterBase c + max clusterOff (s * 512))
      (min (size - out.length) (G.bytesPerCluster - max clusterOff (s * 512))), m) := by
  have hbytes := hG.bytes
  induction k generalizing s out with
  | zero =>
      have hzero : min (size - out.length) (G.bytesPerCluster - max clusterOff (s * 512)) = 0 := by omega
      rw [hzero]
      simp [Loop.run, Disk.range]
  | succ k ih =>
      rw [List.range'_succ, Loop.run, readSlice]
      simp only [readSector_disk]
      by_cases hfull : size ≤ out.length
      · have hzero : min (size - out.length) (G.bytesPerCluster - max clusterOff (s * 512)) = 0 := by omega
        rw [if_pos hfull, hzero]
        simp [Disk.range]
      rw [if_neg hfull]
      by_cases hskip : s * 512 + 512 ≤ clusterOff
      · have hmax : max clusterOff ((s + 1) * 512) = max clusterOff (s * 512) := by omega
        rw [if_pos hskip]
        simp only
        rw [ih (s + 1) out (by omega), hmax]
      rw [if_neg hskip]
      simp only
      have hlba := hG.sectorLba_eq hc (s := s) (by omega)
      have hbase := hG.fatClusterToLba_eq hc
      generalize hchunk : min (512 - (clusterOff - s * 512)) (size - out.length) = chunk
      have hread : (List.range chunk).map (fun i => m.dev (u32 (G.fatClusterToLba c + s)) (clusterOff - s * 512 + i)) =
          m.dev.range (G.clusterBase c + max clusterOff (s * 512)) chunk := by
        refine List.map_congr_left fun i hi => ?_
        have hi := List.mem_range.1 hi
        have haddr : G.clusterBase c + max clusterOff (s * 512) + i =
            u32 (G.fatClusterToLba c + s) * 512 + (clusterOff - s * 512 + i) := by
          unfold clusterBase
          rw [hlba, hbase]
          omega
        unfold Disk.flat
        rw [haddr, show (u32 (G.fatClusterToLba c + s) * 512 + (clusterOff - s * 512 + i)) / 512 =
          u32 (G.fatClusterToLba c + s) by omega, show (u32 (G.fatClusterToLba c + s) * 512 +
          (clusterOff - s * 512 + i)) % 512 = clusterOff - s * 512 + i by omega]
      have hlen : (out ++ m.dev.range (G.clusterBase c + max clusterOff (s * 512)) chunk).length =
          out.length + chunk := by simp [Disk.range]
      rw [hread, ih (s + 1) _ (by omega), hlen, List.append_assoc]
      generalize hrest : min (size - (out.length + chunk)) (G.bytesPerCluster - max clusterOff ((s + 1) * 512)) =
        rest
      have hsum : min (size - out.length) (G.bytesPerCluster - max clusterOff (s * 512)) = chunk + rest := by omega
      rw [hsum, Disk.range_add]
      by_cases h₀ : rest = 0
      · rw [h₀]
        simp [Disk.range]
      · have hnext : G.clusterBase c + max clusterOff ((s + 1) * 512) =
            G.clusterBase c + max clusterOff (s * 512) + chunk := by omega
        rw [hnext]

/-- The bytes of a file in a range. -/
def FatState.fileRange (G : FatState) (d : Disk) (l : List ℕ) (off n : ℕ) : Bytes :=
  (List.range n).map fun i => G.byteAt d l (off + i)

theorem FatState.fileRange_add (d : Disk) (l : List ℕ) (off n k : ℕ) :
    G.fileRange d l off (n + k) = G.fileRange d l off n ++ G.fileRange d l (off + n) k := by
  unfold FatState.fileRange
  rw [List.range_add, List.map_append, List.map_map]
  exact congrArg _ (List.map_congr_left fun i _ => by rw [Function.comp_apply, Nat.add_assoc])

/-- A range in one cluster. -/
theorem fileRange_cluster (hG : GeoOk G) {k clusterOff : ℕ} (hk : l[k]? = some c)
    (hn : clusterOff + n ≤ G.bytesPerCluster) :
    G.fileRange d l (k * G.bytesPerCluster + clusterOff) n = d.range (G.clusterBase c + clusterOff) n := by
  refine List.map_congr_left fun i hi => ?_
  have hi := List.mem_range.1 hi
  have hdiv : (k * G.bytesPerCluster + clusterOff + i) / G.bytesPerCluster = k := by
    rw [Nat.add_assoc, Nat.add_comm, Nat.add_mul_div_right _ _ hG.bytes_pos, Nat.div_eq_of_lt (by omega),
      Nat.zero_add]
  have hmod : (k * G.bytesPerCluster + clusterOff + i) % G.bytesPerCluster = clusterOff + i := by
    rw [Nat.add_assoc, Nat.add_comm, Nat.add_mul_mod_self_right, Nat.mod_eq_of_lt (by omega)]
  unfold FatState.byteAt FatState.addr
  rw [hdiv, hmod, List.getD_eq_getElem?_getD, hk, Option.getD_some, Nat.add_assoc]

/-- **The loop of `fat_read` over the clusters** reads everything that is asked for, or up to the
end of the chain. -/
theorem readClusters_eq (hG : GeoOk G) (hl : G.IsChain m.dev h l) {rounds k clusterOff : ℕ} (size : ℕ) (out : Bytes)
    (hoff : clusterOff < G.bytesPerCluster) (hrounds : G.lastCluster < rounds + k) (hk : k ≤ l.length)
    (hend : k = l.length → clusterOff = 0) :
    readClusters Disk.dev G size rounds ((l[k]?).getD 0) clusterOff out m =
      some (out ++ G.fileRange m.dev l (k * G.bytesPerCluster + clusterOff)
        (min (size - out.length) (l.length * G.bytesPerCluster - (k * G.bytesPerCluster + clusterOff))), m) := by
  have hlen := IsChain.length_lt hl
  induction rounds generalizing k clusterOff out with
  | zero => omega
  | succ rounds ih =>
      rw [readClusters]
      by_cases hfull : size ≤ out.length
      · have hzero : size - out.length = 0 := by omega
        rw [if_pos (Or.inl hfull), hzero, Nat.zero_min]
        simp [FatState.fileRange]
      rcases Nat.eq_or_lt_of_le hk with rfl | hlt
      · rw [List.getElem?_eq_none (le_refl _), Option.getD_none, if_pos (by omega), hend rfl]
        simp [FatState.fileRange]
      obtain ⟨c, hc⟩ : ∃ c, l[k]? = some c := ⟨_, List.getElem?_eq_getElem hlt⟩
      have hv : G.Valid c := IsChain.valid hl (List.mem_of_getElem? hc)
      have hstep : (k + 1) * G.bytesPerCluster ≤ l.length * G.bytesPerCluster := Nat.mul_le_mul_right _ hlt
      rw [Nat.add_mul, Nat.one_mul] at hstep
      rw [hc, Option.getD_some, if_neg (by have := hv.1; have := hv.2; omega)]
      have hslices := readSlices_eq hG hv hoff size G.sectorsPerCluster 0 out m (by omega)
      rw [← List.range_eq_range', Nat.zero_mul, Nat.max_zero] at hslices
      obtain ⟨⟨b, r⟩, hrun, hr⟩ := Option.map_eq_some_iff.1 hslices
      simp only at hr
      subst hr
      rw [hrun]
      simp only [Option.bind_eq_bind, Option.bind_some, if_true, fatNextCluster_disk, IsChain.next_getElem? hl hc]
      rw [ih (k := k + 1) _ hG.bytes_pos (by omega) hlt (fun _ => rfl), ← fileRange_cluster hG hc (by omega), List.append_assoc]
      generalize hn : min (size - out.length) (G.bytesPerCluster - clusterOff) = n
      have hlen' : (out ++ G.fileRange m.dev l (k * G.bytesPerCluster + clusterOff) n).length = out.length + n := by
        simp [FatState.fileRange]
      rw [hlen', Nat.add_mul, Nat.one_mul, Nat.add_zero]
      generalize hn' : min (size - (out.length + n)) (l.length * G.bytesPerCluster -
        (k * G.bytesPerCluster + G.bytesPerCluster)) = n'
      have hsum : min (size - out.length) (l.length * G.bytesPerCluster - (k * G.bytesPerCluster + clusterOff)) =
          n + n' := by omega
      rw [hsum, FatState.fileRange_add]
      by_cases h₀ : n' = 0
      · rw [h₀]
        simp [FatState.fileRange]
      · rw [show k * G.bytesPerCluster + G.bytesPerCluster = k * G.bytesPerCluster + clusterOff + n by omega]

/-- The number of bytes that `fat_read` sets out to copy. -/
def readSize (fileSize size offset : ℕ) : ℕ :=
  if fileSize < u64 (offset + size) then u64 (fileSize + 2 ^ 64 - offset) else size

/-- **`fat_read`** of a file whose chain covers its size gives the bytes from the 32-bit position of
the offset on, at most to the end of the chain. -/
theorem fatRead_eq (hG : GeoOk G) {node : FatNode} (size offset : ℕ) (htype : node.type = .file)
    (hl : node.inode = 0 ∧ l = [] ∨ G.IsChain m.dev node.inode l)
    (hsize : node.size ≤ l.length * G.bytesPerCluster) :
    fatRead Disk.dev G node size offset m =
      some (some (if node.size ≤ u32 offset then []
        else G.fileRange m.dev l (u32 offset) (min (readSize node.size size offset)
          (l.length * G.bytesPerCluster - u32 offset))), m) := by
  unfold fatRead
  rw [if_neg (fun h => h htype)]
  generalize u32 offset = off
  by_cases hend : node.size ≤ off
  · rw [if_pos hend, if_pos hend]
  rw [if_neg hend, if_neg hend]
  have hl : G.IsChain m.dev node.inode l := by
    rcases hl with ⟨-, rfl⟩ | hl
    · simp only [List.length_nil, Nat.zero_mul] at hsize
      omega
    · exact hl
  have hv : G.Valid node.inode := IsChain.valid hl hl.head_mem
  simp only
  rw [if_neg (by have := hv.1; omega), fatSkip_eq]
  have hdiv := Nat.div_add_mod' off G.bytesPerCluster
  have hskip : off / G.bytesPerCluster < l.length := Nat.div_lt_of_lt_mul (by rw [Nat.mul_comm]; omega)
  obtain ⟨c, hc⟩ : ∃ c, l[off / G.bytesPerCluster]? = some c := ⟨_, List.getElem?_eq_getElem hskip⟩
  have hcv : G.Valid c := IsChain.valid hl (List.mem_of_getElem? hc)
  have hhead : l[0]? = some node.inode := by
    obtain ⟨rest, hrest⟩ := hl.eq_cons
    rw [hrest]
    rfl
  rw [fatWalkChain_false hl 0 _ hhead, Nat.zero_add, hc]
  simp only [Option.getD_some, Option.bind_eq_bind, Option.bind_some, if_neg (show c ≠ 0 by have := hcv.1; omega)]
  have hrounds : G.lastCluster < u32 (G.totalClusters + 2) + off / G.bytesPerCluster := by
    rw [hG.rounds_eq]
    exact Nat.lt_add_right _ (Nat.lt_succ_self _)
  have hread := fun n => readClusters_eq hG hl n [] (Nat.mod_lt off hG.bytes_pos) hrounds hskip.le
    (fun h => absurd h hskip.ne)
  simp only [hc, Option.getD_some, hdiv, List.nil_append, List.length_nil, Nat.sub_zero] at hread
  rw [hread, Option.bind_some, readSize]

end LighthOS
