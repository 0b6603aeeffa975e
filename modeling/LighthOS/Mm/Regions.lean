/-
# The regions of physical memory

`pmm_region_iter` of `src/mm/pmm.c` reports the maximal runs of used and of free frames to a
callback, and the system call `SYS_REGIONS` of `src/kernel/syscall.c` answers with the n-th of
them: its callback counts the reports in global variables and keeps the one that was asked for.

The callback is any function on a state of its own; it sees the same regions whatever it does
with them (`pmmRegionIter_foldl`).  The run that the loop has open is not reported yet, so the
invariant of the loop is about the regions reported so far and the frames of the open run
(`RegionRun.Open`).
-/

import LighthOS.Mm.Pmm
import LighthOS.Lib.Tiling
import Mathlib.Data.List.Chain

namespace LighthOS

open Tiling

/-- A report to the callback: `cb(start_frame, len, used)`. -/
structure Region where
  startFrame : ℕ
  len : ℕ
  used : Bool
  deriving DecidableEq

/-- The variables of the loop of `pmm_region_iter`, and the state of the callback. -/
structure RegionRun (σ : Type) where
  runStart : ℕ
  runUsed : Bool
  state : σ

section Iter

variable {σ : Type} (p : Pmm) (cb : σ → Region → σ)

/-- One round of the loop. -/
def regionRound (r : RegionRun σ) (i : ℕ) : RegionRun σ :=
  if p.bitmap i ≠ r.runUsed then
    ⟨i, p.bitmap i, cb r.state ⟨r.runStart, i - r.runStart, r.runUsed⟩⟩
  else r

/-- `pmm_region_iter`. -/
def pmmRegionIter (s : σ) : σ :=
  if p.totalFrames = 0 then s
  else
    let r := (List.range' 1 (p.totalFrames - 1)).foldl (regionRound p cb) ⟨0, p.bitmap 0, s⟩
    cb r.state ⟨r.runStart, p.totalFrames - r.runStart, r.runUsed⟩

end Iter

/-- `struct region_out`. -/
structure RegionOut where
  startAddr : ℕ
  endAddr : ℕ
  used : Bool
  deriving DecidableEq

/-- The global variables of `SYS_REGIONS`. -/
structure RegionsQuery where
  target : ℕ
  seen : ℕ
  result : Option RegionOut

/-- What `regions_collect_cb` stores of a region. -/
def Region.out (r : Region) : RegionOut :=
  ⟨r.startFrame * pageSize, (r.startFrame + r.len) % 2 ^ 32 * pageSize, r.used⟩

/-- `regions_collect_cb`; `regions_found` says whether there is a result. -/
def regionsCollectCb (q : RegionsQuery) (r : Region) : RegionsQuery :=
  if q.result.isSome then q
  else { q with
    result := if q.seen = q.target then some r.out else none
    seen := (q.seen + 1) % 2 ^ 64 }

/-- `SYS_REGIONS` with its two arguments; none for `-1`. -/
def sysRegions (p : Pmm) (a1 out : ℕ) : Option RegionOut :=
  if out = 0 then none else (pmmRegionIter p regionsCollectCb ⟨a1, 0, none⟩).result

/-- The regions that `pmm_region_iter` reports, in order. -/
def regions (p : Pmm) : List Region := pmmRegionIter p (fun l r => l ++ [r]) []

/-! ### The reports do not depend on the callback -/

/-- A callback that stores the reports sees what any callback sees. -/
theorem pmmRegionIter_foldl {σ : Type} (p : Pmm) (cb : σ → Region → σ) (s : σ) :
    pmmRegionIter p cb s = (regions p).foldl cb s := by
  -- the state of `cb` at any time is what it makes of the reports so far
  let view : RegionRun (List Region) → RegionRun σ := fun r => ⟨r.runStart, r.runUsed, r.state.foldl cb s⟩
  have hround : ∀ r i, regionRound p cb (view r) i = view (regionRound p (fun l r => l ++ [r]) r i) := by
    intro r i
    simp only [regionRound, view]
    split_ifs
    · rw [List.foldl_append, List.foldl_cons, List.foldl_nil]
    · rfl
  have hloop : (List.range' 1 (p.totalFrames - 1)).foldl (regionRound p cb) (view ⟨0, p.bitmap 0, []⟩) = view _ :=
    List.foldl_hom view hround
  simp only [regions, pmmRegionIter]
  split_ifs
  · rfl
  · rw [List.foldl_append, List.foldl_cons, List.foldl_nil]
    exact congrArg (fun r : RegionRun σ => cb r.state ⟨r.runStart, p.totalFrames - r.runStart, r.runUsed⟩) hloop

/-- The callback of `SYS_REGIONS` keeps the report that was asked for. -/
theorem foldl_regionsCollectCb (l : List Region) (target seen : ℕ) (hle : seen ≤ target)
    (hlen : seen + l.length < 2 ^ 64) :
    (l.foldl regionsCollectCb ⟨target, seen, none⟩).result = (l[target - seen]?).map Region.out := by
  induction l generalizing seen with
  | nil => rfl
  | cons r l ih =>
      rw [List.length_cons] at hlen
      rw [List.foldl_cons, regionsCollectCb]
      simp only [Option.isSome_none, Bool.false_eq_true, if_false]
      have hseen : (seen + 1) % 2 ^ 64 = seen + 1 := Nat.mod_eq_of_lt (by omega)
      by_cases heq : seen = target
      · rw [if_pos heq, heq, Nat.sub_self]
        have hkept : ∀ (l : List Region) (q : RegionsQuery), q.result.isSome = true →
            l.foldl regionsCollectCb q = q := by
          intro l q hq
          induction l with
          | nil => rfl
          | cons r' l ih' => rw [List.foldl_cons, regionsCollectCb, if_pos hq, ih']
        rw [hkept l _ rfl]
        rfl
      · rw [if_neg heq, hseen, ih (seen + 1) (by omega) (by omega),
          show target - seen = target - (seen + 1) + 1 by omega, List.getElem?_cons_succ]

/-! ### The reports partition memory -/

/-- The regions lie one behind the other from frame `a` to frame `e`; none is empty, each is used or
free as the bitmap says, and neighbours differ. -/
structure Partitions (bitmap : ℕ → Bool) (a e : ℕ) (l : List Region) : Prop where
  tiles : Tiles Region.startFrame Region.len a l e
  nonempty : ∀ r ∈ l, 0 < r.len
  uniform : ∀ r ∈ l, ∀ f, r.startFrame ≤ f → f < r.startFrame + r.len → bitmap f = r.used
  alternate : l.IsChain fun r r' => r'.used ≠ r.used

/-- One more region. -/
theorem Partitions.concat {bitmap : ℕ → Bool} {a m e : ℕ} {l : List Region} (h : Partitions bitmap a m l)
    (hme : m < e) {used : Bool} (hused : ∀ f, m ≤ f → f < e → bitmap f = used)
    (hlast : ∀ r ∈ l.getLast?, used ≠ r.used) : Partitions bitmap a e (l ++ [⟨m, e - m, used⟩]) := by
  have hlen : m + (e - m) = e := by omega
  refine ⟨tiles_append.2 ⟨m, h.tiles, rfl, hlen⟩, ?_, ?_, ?_⟩
  · intro r hr
    rcases List.mem_append.1 hr with hr | hr
    · exact h.nonempty r hr
    · rw [List.mem_singleton] at hr
      subst hr
      exact Nat.sub_pos_of_lt hme
  · intro r hr f h₁ h₂
    rcases List.mem_append.1 hr with hr | hr
    · exact h.uniform r hr f h₁ h₂
    · rw [List.mem_singleton] at hr
      subst hr
      exact hused f h₁ (hlen ▸ h₂)
  · refine h.alternate.append (List.isChain_singleton _) ?_
    intro r hr r' hr'
    simp only [List.head?_cons, Option.mem_def, Option.some.injEq] at hr'
    subst hr'
    exact hlast r hr

/-- The loop before frame `i`: the reports end where the open run starts, and the frames of the open
run are alike. -/
structure RegionRun.Open (p : Pmm) (i : ℕ) (r : RegionRun (List Region)) : Prop where
  reported : Partitions p.bitmap 0 r.runStart r.state
  started : r.runStart < i
  alike : ∀ f, r.runStart ≤ f → f < i → p.bitmap f = r.runUsed
  differs : ∀ r' ∈ r.state.getLast?, r.runUsed ≠ r'.used

/-- One round of the loop. -/
theorem RegionRun.Open.round {p : Pmm} {i : ℕ} {r : RegionRun (List Region)} (h : r.Open p i) :
    (regionRound p (fun l r => l ++ [r]) r i).Open p (i + 1) := by
  unfold regionRound
  split_ifs with hi
  · refine ⟨h.reported.concat h.started h.alike h.differs, Nat.lt_succ_self i, ?_, ?_⟩
    · intro f h₁ h₂
      rw [show f = i from Nat.le_antisymm (Nat.le_of_lt_succ h₂) h₁]
    · intro r' hr'
      rw [List.getLast?_append, List.getLast?_singleton, Option.some_or, Option.mem_some] at hr'
      subst hr'
      exact hi
  · rw [not_not] at hi
    refine ⟨h.reported, h.started.trans (Nat.lt_succ_self i), ?_, h.differs⟩
    intro f h₁ h₂
    rcases Nat.eq_or_lt_of_le (Nat.le_of_lt_succ h₂) with rfl | hf
    · exact hi
    · exact h.alike f h₁ hf

/-- The whole loop. -/
theorem RegionRun.Open.loop (p : Pmm) (n : ℕ) :
    ((List.range' 1 n).foldl (regionRound p fun l r => l ++ [r]) ⟨0, p.bitmap 0, []⟩).Open p (n + 1) := by
  induction n with
  | zero =>
      refine ⟨⟨rfl, by simp, by simp, List.isChain_nil⟩, Nat.zero_lt_one, ?_, by simp⟩
      intro f _ hf
      rw [Nat.lt_one_iff.1 hf]
      rfl
  | succ n ih =>
      rw [List.range'_1_concat, List.foldl_append, List.foldl_cons, List.foldl_nil, Nat.add_comm 1 n]
      exact ih.round

/-- The regions partition the frames. -/
theorem regions_partitions {p : Pmm} (h : 1 ≤ p.totalFrames) :
    Partitions p.bitmap 0 p.totalFrames (regions p) := by
  have hopen := RegionRun.Open.loop p (p.totalFrames - 1)
  rw [Nat.sub_add_cancel h] at hopen
  rw [regions, pmmRegionIter, if_neg (by omega)]
  exact hopen.reported.concat hopen.started hopen.alike hopen.differs

/-- **The regions partition memory.**  For every bitmap of at least one frame, what `pmm_region_iter`
reports is a list of regions that lie one behind the other and cover all frames; none is empty, each is
used or free exactly as the bitmap says, and neighbours differ.  Any callback is called for these
regions in this order, and `SYS_REGIONS` answers the index `i` with the `i`-th of them, and `-1` behind
the last. -/
theorem sysRegions_partition (p : Pmm) (h₁ : 1 ≤ p.totalFrames) (h₂ : p.totalFrames < 2 ^ 32) :
    ∃ l : List Region, Partitions p.bitmap 0 p.totalFrames l ∧
      (∀ {σ : Type} (cb : σ → Region → σ) (s : σ), pmmRegionIter p cb s = l.foldl cb s) ∧
      ∀ i out, out ≠ 0 → sysRegions p i out = (l[i]?).map fun r =>
        ⟨r.startFrame * pageSize, (r.startFrame + r.len) * pageSize, r.used⟩ := by
  have hpart := regions_partitions h₁
  refine ⟨regions p, hpart, pmmRegionIter_foldl p, ?_⟩
  intro i out hout
  have hlen : (regions p).length < 2 ^ 64 := by
    have := hpart.tiles.length_mul_le (m := 1) fun r hr => hpart.nonempty r hr
    omega
  rw [sysRegions, if_neg hout, pmmRegionIter_foldl,
    foldl_regionsCollectCb _ i 0 (Nat.zero_le i) (by omega), Nat.sub_zero]
  refine Option.map_congr fun r hr => ?_
  have hend := (hpart.tiles.bounds (List.mem_of_getElem? hr)).2
  rw [Region.out, Nat.mod_eq_of_lt (by omega)]

/-- The hypotheses of `sysRegions_partition` are satisfiable: four frames, of which the two in the
middle are free. -/
theorem sysRegions_partition_four : ∃ l : List Region,
    Partitions (fun f => f = 0 ∨ 3 ≤ f) 0 4 l ∧ (l[1]?).map Region.used = some false ∧
      sysRegions ⟨fun f => f = 0 ∨ 3 ≤ f, 1, 4, 2⟩ 1 8 = some ⟨4096, 12288, false⟩ := by
  obtain ⟨l, hpart, -, hquery⟩ :=
    sysRegions_partition ⟨fun f => f = 0 ∨ 3 ≤ f, 1, 4, 2⟩ (by decide) (by decide)
  have hanswer : sysRegions ⟨fun f => f = 0 ∨ 3 ≤ f, 1, 4, 2⟩ 1 8 = some ⟨4096, 12288, false⟩ := by decide
  refine ⟨l, hpart, ?_, hanswer⟩
  have hone := (hquery 1 8 (by decide)).symm.trans hanswer
  rw [Option.map_eq_some_iff] at hone ⊢
  obtain ⟨r, hr, hout⟩ := hone
  exact ⟨r, hr, congrArg RegionOut.used hout⟩

end LighthOS
