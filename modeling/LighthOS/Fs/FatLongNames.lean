/-
# The accumulator of long names

`lfn_collect` stores the characters of a slot of a long name at the place that its sequence number
says, and `lfn_len` is the greatest end of what has been stored.  The slots come from the disk, in any
order and with any numbers.

A slot with the number `0` would store its characters before `lfn_buf`.  All other slots store within
the buffer, whatever they hold, and the name stays terminated; but it has holes, with bytes of the
names before, where a slot with a lower number is missing or does not hold all of its thirteen
characters.  These are all the ways in which the accumulator goes wrong (`lfn_inBounds_iff`).
-/

import LighthOS.Fs.FatWalk
import Mathlib.Data.List.DropRight

namespace LighthOS

/-! ### Slots of long names -/

namespace Dirent

variable (e : Dirent)

/-- The sequence number of a slot. -/
def longSeq : ℕ := (e 0).toNat % 64

/-- The place of its first character, for a number other than `0`. -/
def longStart : ℕ := 13 * (e.longSeq - 1)

/-- The characters in front of the terminator. -/
def longChars : List ℕ :=
  (lfnOffsets.map fun off => readLe e off 2).takeWhile fun ch => ch ≠ 0 ∧ ch ≠ 0xFFFF

/-- The number of characters that have a place in the buffer. -/
def longCount : ℕ := min e.longChars.length (255 - e.longStart)

/-- The place behind the last character; `0` where there is none. -/
def longEnd : ℕ := if e.longCount = 0 then 0 else e.longStart + e.longCount

end Dirent

/-! ### The accesses to the buffer -/

/-- The indices at which the loop of `lfn_collect` stores, from `start + i` on. -/
def lfnIndices (raw : Dirent) : List ℕ → ℤ → List ℤ
  | [], _ => []
  | off :: offs, pos =>
      if 255 ≤ pos then []
      else if readLe raw off 2 = 0 ∨ readLe raw off 2 = 0xFFFF then []
      else pos :: lfnIndices raw offs (pos + 1)

/-- The indices at which `lfn_collect` stores: those of the loop, and `lfn_len`. -/
def Lfn.accesses (raw : Dirent) (l : Lfn) : List ℤ :=
  lfnIndices raw lfnOffsets (((raw 0).toNat % 64 : ℕ) * 13 - 13) ++ [((l.collect raw).len : ℤ)]

/-- The accumulator, with the indices at which `lfn_collect` has stored since the last `lfn_reset`,
and since the walk began. -/
structure LfnTrace where
  lfn : Lfn
  since : List ℤ
  all : List ℤ

/-- A slot passes through `dir_walk`. -/
def LfnTrace.pass (t : LfnTrace) (e : Dirent) : LfnTrace :=
  if e.isLong then ⟨t.lfn.collect e, t.since ++ t.lfn.accesses e, t.all ++ t.lfn.accesses e⟩
  else ⟨t.lfn.reset, [], t.all⟩

/-- A walk through slots. -/
def lfnTrace (l : Lfn) (slots : List Dirent) : LfnTrace := slots.foldl LfnTrace.pass ⟨l.reset, [], []⟩

theorem lfnTrace_concat (l : Lfn) (slots : List Dirent) (e : Dirent) :
    lfnTrace l (slots ++ [e]) = (lfnTrace l slots).pass e := by
  rw [lfnTrace, List.foldl_append]
  rfl

/-- **What the callbacks get**: the accumulator after the slots in front of an entry. -/
theorem entriesOf_lfn_trace {slots : List Slot} (front : List Slot) {l : Lfn} {e : Entry}
    (h : e ∈ entriesOf slots (lfnTrace l (front.map (·.raw))).lfn) : ∃ pre post,
    slots = pre ++ e.toSlot :: post ∧ e.lfn = (lfnTrace l ((front ++ pre).map (·.raw))).lfn := by
  induction slots generalizing front with
  | nil => simp [entriesOf] at h
  | cons s slots ih =>
    have hpass := lfnTrace_concat l (front.map (·.raw)) s.raw
    have hmap : (front ++ [s]).map (·.raw) = front.map (·.raw) ++ [s.raw] := by simp
    rw [← hmap] at hpass
    -- what the slot leaves is what the later slots start from
    have hlater : e ∈ entriesOf slots (lfnTrace l ((front ++ [s]).map (·.raw))).lfn → ∃ pre post,
        s :: slots = pre ++ e.toSlot :: post ∧ e.lfn = (lfnTrace l ((front ++ pre).map (·.raw))).lfn := by
      intro hmem
      obtain ⟨pre, post, hsplit, hlfn⟩ := ih _ hmem
      refine ⟨s :: pre, post, by rw [hsplit, List.cons_append], ?_⟩
      rw [hlfn, List.append_assoc, List.singleton_append]
    rw [entriesOf] at h
    cases hlong : s.raw.isLong with
    | true =>
      rw [hlong, if_pos rfl] at h
      refine hlater ?_
      rw [hpass, LfnTrace.pass, hlong, if_pos rfl]
      exact h
    | false =>
      rw [hlong, if_neg Bool.false_ne_true] at h
      rcases List.mem_cons.1 h with rfl | h
      · exact ⟨[], slots, rfl, by rw [List.append_nil]⟩
      · refine hlater ?_
        rw [hpass, LfnTrace.pass, hlong, if_neg Bool.false_ne_true]
        exact h

/-- The accumulator of an entry of a directory is what a walk through the slots in front of it leaves. -/
theorem FatState.entries_lfn_trace {G : FatState} {m : FatMem Disk} {dir : ℕ} {e : Entry} (h : e ∈ G.entries m dir) :
    ∃ pre post, G.dirSlots m.dev dir = pre ++ e.toSlot :: post ∧ e.lfn = (lfnTrace m.lfn (pre.map (·.raw))).lfn :=
  entriesOf_lfn_trace [] h

/-- **The accumulator is in bounds**: all indices are in the buffer, the length is in the buffer and
the name is terminated there, and all of its bytes have been written since the last reset. -/
structure LfnInBounds (t : LfnTrace) : Prop where
  indices : ∀ i ∈ t.all, 0 ≤ i ∧ i ≤ 255
  len : t.lfn.len ≤ 255
  terminated : t.lfn.buf t.lfn.len = 0
  written : ∀ j < t.lfn.len, (j : ℤ) ∈ t.since

/-- A run of slots has written the last character with this number: all characters of a slot with it;
or all but one, and then the terminator of the name so far. -/
def FilledAt (run : List Dirent) (q : ℕ) : Prop :=
  (∃ e ∈ run, e.longSeq = q ∧ e.longCount = 13) ∨
    ∃ front e back, run = front ++ e :: back ∧ e.longSeq = q ∧ e.longCount = 12 ∧
      ∀ x ∈ front, x.longEnd ≤ e.longEnd

/-- **Slots in order**: no slot with the number `0` holds characters, and in the run of long slots at
the end, a slot that holds characters comes with those of all lower numbers. -/
structure SlotsOk (slots : List Dirent) : Prop where
  numbered : ∀ e ∈ slots, e.isLong = true → e.longSeq = 0 → e.longCount = 0
  filled : ∀ e ∈ slots.rtakeWhile (·.isLong), 0 < e.longCount → ∀ q, 1 ≤ q → q < e.longSeq →
    FilledAt (slots.rtakeWhile (·.isLong)) q

/-! ### One slot -/

/-- The characters in front of the terminator, from an offset on. -/
theorem takeWhile_chars_cons (raw : Dirent) (off : ℕ) (offs : List ℕ) :
    ((off :: offs).map fun off => readLe raw off 2).takeWhile (fun ch => ch ≠ 0 ∧ ch ≠ 0xFFFF) =
      if readLe raw off 2 = 0 ∨ readLe raw off 2 = 0xFFFF then []
      else readLe raw off 2 :: (offs.map fun off => readLe raw off 2).takeWhile fun ch => ch ≠ 0 ∧ ch ≠ 0xFFFF := by
  rw [List.map_cons, List.takeWhile_cons]
  by_cases hch : readLe raw off 2 = 0 ∨ readLe raw off 2 = 0xFFFF
  · rw [if_pos hch, if_neg]
    rw [decide_eq_true_eq]
    omega
  · rw [if_neg hch, if_pos]
    rw [decide_eq_true_eq]
    omega

theorem lfnIndices_eq (raw : Dirent) (offs : List ℕ) (pos : ℤ) : lfnIndices raw offs pos =
    (List.range (min ((offs.map fun off => readLe raw off 2).takeWhile fun ch => ch ≠ 0 ∧ ch ≠ 0xFFFF).length
      (255 - pos).toNat)).map fun i : ℕ => pos + i := by
  induction offs generalizing pos with
  | nil => simp [lfnIndices]
  | cons off offs ih =>
    rw [lfnIndices, takeWhile_chars_cons]
    by_cases hpos : 255 ≤ pos
    · rw [if_pos hpos, Int.toNat_of_nonpos (by omega), Nat.min_zero]
      rfl
    · rw [if_neg hpos]
      split_ifs with hch
      · rw [List.length_nil, Nat.zero_min]
        rfl
      · obtain ⟨n, hn⟩ : ∃ n : ℕ, (255 - pos).toNat = n + 1 := ⟨(255 - pos).toNat - 1, by omega⟩
        have hn' : (255 - (pos + 1)).toNat = n := by omega
        rw [ih, hn, hn', List.length_cons, Nat.succ_min_succ, List.range_succ_eq_map, List.map_cons,
          List.map_map, Nat.cast_zero, add_zero]
        refine congrArg (pos :: ·) (List.map_congr_left fun i _ => ?_)
        simp only [Function.comp, Nat.cast_succ]
        omega

/-- The loop of `lfn_collect` moves the length to the end of what it stores. -/
theorem lfnStore_len (raw : Dirent) (offs : List ℕ) {pos : ℤ} (hpos : 0 ≤ pos) (l : Lfn) :
    (lfnStore raw offs pos l).len =
      if lfnIndices raw offs pos = [] then l.len
      else max l.len (pos.toNat + (lfnIndices raw offs pos).length) := by
  induction offs generalizing pos l with
  | nil => rfl
  | cons off offs ih =>
    rw [lfnStore, lfnIndices]
    by_cases hend : 255 ≤ pos
    · simp [hend]
    · by_cases hch : readLe raw off 2 = 0 ∨ readLe raw off 2 = 0xFFFF
      · simp [hend, hch]
      · simp only [hend, hch, if_false, Int.not_lt.2 hpos, reduceCtorEq, List.length_cons]
        rw [ih (by omega)]
        have hnext : (pos + 1).toNat = pos.toNat + 1 := by omega
        rw [hnext]
        split_ifs with hnil
        · rw [hnil, List.length_nil]
        · simp only
          omega

/-- A loop that stores nothing changes nothing. -/
theorem lfnStore_of_nil {raw : Dirent} {offs : List ℕ} {pos : ℤ} (h : lfnIndices raw offs pos = []) (l : Lfn) :
    lfnStore raw offs pos l = l := by
  cases offs with
  | nil => rfl
  | cons off offs =>
    rw [lfnIndices] at h
    rw [lfnStore]
    simp only
    split_ifs at h ⊢
    · rfl
    · rfl

namespace Dirent

variable (e : Dirent)

theorem longChars_length_le : e.longChars.length ≤ 13 :=
  (List.takeWhile_sublist _).length_le.trans (by simp [lfnOffsets])

theorem longCount_le : e.longCount ≤ 13 := (Nat.min_le_left _ _).trans e.longChars_length_le

theorem longStart_add_longCount_le (h : e.longCount ≠ 0) : e.longStart + e.longCount ≤ 255 := by
  have := Nat.min_le_right e.longChars.length (255 - e.longStart)
  unfold longCount at h ⊢
  omega

theorem longEnd_le : e.longEnd ≤ 255 := by
  unfold longEnd
  split_ifs with h
  · omega
  · exact e.longStart_add_longCount_le h

/-- The indices of a slot with the number `0`. -/
theorem lfnIndices_zero (h : e.longSeq = 0) : lfnIndices e lfnOffsets (((e 0).toNat % 64 : ℕ) * 13 - 13) =
    (List.range e.longCount).map fun i : ℕ => (-13 : ℤ) + i := by
  have hseq : (e 0).toNat % 64 = 0 := h
  have hcount : min e.longChars.length (255 - (-13 : ℤ)).toNat = e.longCount := by
    have hle := e.longChars_length_le
    unfold longCount longStart
    rw [h]
    omega
  rw [hseq, lfnIndices_eq]
  exact congrArg (fun n => (List.range n).map fun i : ℕ => (-13 : ℤ) + i) hcount

/-- The indices of all other slots. -/
theorem lfnIndices_pos (h : e.longSeq ≠ 0) : lfnIndices e lfnOffsets (((e 0).toNat % 64 : ℕ) * 13 - 13) =
    (List.range e.longCount).map fun i : ℕ => (e.longStart : ℤ) + i := by
  have hstart : (((e 0).toNat % 64 : ℕ) : ℤ) * 13 - 13 = e.longStart := by
    unfold longStart longSeq at *
    omega
  have hcount : min e.longChars.length (255 - (e.longStart : ℤ)).toNat = e.longCount := by
    unfold longCount
    omega
  rw [hstart, lfnIndices_eq]
  exact congrArg (fun n => (List.range n).map fun i : ℕ => (e.longStart : ℤ) + i) hcount

/-- A slot that stores within the buffer. -/
def Numbered : Prop := e.longSeq = 0 → e.longCount = 0

variable {e} (he : e.Numbered)

include he

theorem Numbered.mem_lfnIndices (i : ℤ) : i ∈ lfnIndices e lfnOffsets (((e 0).toNat % 64 : ℕ) * 13 - 13) ↔
    ∃ j : ℕ, i = j ∧ e.longStart ≤ j ∧ j < e.longStart + e.longCount := by
  by_cases hseq : e.longSeq = 0
  · rw [e.lfnIndices_zero hseq, he hseq]
    simp only [List.range_zero, List.map_nil, List.not_mem_nil, add_zero, false_iff]
    rintro ⟨j, -, h₁, h₂⟩
    omega
  · rw [e.lfnIndices_pos hseq, List.mem_map]
    constructor
    · rintro ⟨i, hi, rfl⟩
      exact ⟨e.longStart + i, by push_cast; rfl, by omega, by have := List.mem_range.1 hi; omega⟩
    · rintro ⟨j, rfl, h₁, h₂⟩
      exact ⟨j - e.longStart, List.mem_range.2 (by omega), by omega⟩

/-- The length after a slot. -/
theorem Numbered.collect_len (l : Lfn) : (l.collect e).len = max l.len e.longEnd := by
  show (lfnStore e lfnOffsets _ l).len = _
  by_cases hcount : e.longCount = 0
  · have hnil : lfnIndices e lfnOffsets (((e 0).toNat % 64 : ℕ) * 13 - 13) = [] := by
      refine List.eq_nil_iff_forall_not_mem.2 fun i hi => ?_
      obtain ⟨j, -, h₁, h₂⟩ := (he.mem_lfnIndices i).1 hi
      omega
    rw [lfnStore_of_nil hnil, longEnd, if_pos hcount, Nat.max_zero]
  · have hseq : e.longSeq ≠ 0 := fun h => hcount (he h)
    have hlen : (lfnIndices e lfnOffsets (((e 0).toNat % 64 : ℕ) * 13 - 13)).length = e.longCount := by
      rw [e.lfnIndices_pos hseq, List.length_map, List.length_range]
    have hstart : ((((e 0).toNat % 64 : ℕ) : ℤ) * 13 - 13).toNat = e.longStart := by
      unfold longStart longSeq at *
      omega
    have hpos : (0 : ℤ) ≤ (((e 0).toNat % 64 : ℕ) : ℤ) * 13 - 13 := by
      unfold longSeq at hseq
      omega
    rw [lfnStore_len e lfnOffsets hpos, if_neg, hlen, hstart, longEnd, if_neg hcount]
    intro hnil
    rw [hnil, List.length_nil] at hlen
    exact hcount hlen.symm

end Dirent

/-! ### A run of slots -/

/-- The greatest end of the slots of a run. -/
def runEnd (run : List Dirent) : ℕ := run.foldl (fun n e => max n e.longEnd) 0

theorem runEnd_concat (run : List Dirent) (e : Dirent) : runEnd (run ++ [e]) = max (runEnd run) e.longEnd := by
  rw [runEnd, List.foldl_append]
  rfl

theorem longEnd_le_runEnd {run : List Dirent} {e : Dirent} (h : e ∈ run) : e.longEnd ≤ runEnd run := by
  induction run using List.reverseRecOn with
  | nil => simp at h
  | append_singleton run x ih =>
    rw [runEnd_concat]
    rcases List.mem_append.1 h with h | h
    · exact (ih h).trans (Nat.le_max_left _ _)
    · rw [List.mem_singleton.1 h]
      exact Nat.le_max_right _ _

theorem runEnd_eq (run : List Dirent) : runEnd run = 0 ∨ ∃ e ∈ run, e.longEnd = runEnd run := by
  induction run using List.reverseRecOn with
  | nil => exact Or.inl rfl
  | append_singleton run x ih =>
    rw [runEnd_concat]
    rcases Nat.le_total (runEnd run) x.longEnd with hle | hle
    · rw [Nat.max_eq_right hle]
      exact Or.inr ⟨x, by simp, rfl⟩
    · rw [Nat.max_eq_left hle]
      rcases ih with h | ⟨e, he, h⟩
      · exact Or.inl h
      · exact Or.inr ⟨e, List.mem_append_left _ he, h⟩

theorem runEnd_le (run : List Dirent) : runEnd run ≤ 255 := by
  rcases runEnd_eq run with h | ⟨e, -, h⟩
  · omega
  · rw [← h]
    exact e.longEnd_le

/-- A run writes the characters of its slots, and behind each slot the terminator of the name so
far. -/
def RunWrites (run : List Dirent) (j : ℕ) : Prop :=
  (∃ e ∈ run, e.longStart ≤ j ∧ j < e.longStart + e.longCount) ∨
    ∃ front back, run = front ++ back ∧ front ≠ [] ∧ j = runEnd front

theorem runWrites_concat (run : List Dirent) (e : Dirent) (j : ℕ) : RunWrites (run ++ [e]) j ↔
    RunWrites run j ∨ (e.longStart ≤ j ∧ j < e.longStart + e.longCount) ∨ j = runEnd (run ++ [e]) := by
  constructor
  · rintro (⟨x, hx, hj⟩ | ⟨front, back, hsplit, hne, hj⟩)
    · rcases List.mem_append.1 hx with hx | hx
      · exact Or.inl (Or.inl ⟨x, hx, hj⟩)
      · rw [List.mem_singleton.1 hx] at hj
        exact Or.inr (Or.inl hj)
    · rcases List.eq_nil_or_concat back with rfl | ⟨back, y, rfl⟩
      · rw [List.append_nil] at hsplit
        rw [hsplit]
        exact Or.inr (Or.inr hj)
      · rw [List.concat_eq_append, ← List.append_assoc] at hsplit
        obtain ⟨rfl, -⟩ := List.append_inj' hsplit rfl
        exact Or.inl (Or.inr ⟨front, back, rfl, hne, hj⟩)
  · rintro ((⟨x, hx, hj⟩ | ⟨front, back, rfl, hne, hj⟩) | hj | hj)
    · exact Or.inl ⟨x, List.mem_append_left _ hx, hj⟩
    · exact Or.inr ⟨front, back ++ [e], by rw [List.append_assoc], hne, hj⟩
    · exact Or.inl ⟨e, by simp, hj⟩
    · exact Or.inr ⟨run ++ [e], [], by simp, by simp, hj⟩

/-- **A run writes the whole name exactly where it is filled**: the last character of every number
below one that holds characters is written. -/
theorem runWrites_iff {run : List Dirent} (hnum : ∀ e ∈ run, e.Numbered) : (∀ j < runEnd run, RunWrites run j) ↔
    ∀ e ∈ run, 0 < e.longCount → ∀ q, 1 ≤ q → q < e.longSeq → FilledAt run q := by
  constructor
  · intro h e he hcount q hq hlt
    have hend : e.longStart + e.longCount ≤ runEnd run := by
      have := longEnd_le_runEnd he
      rwa [Dirent.longEnd, if_neg (by omega)] at this
    have hstart : 13 * q ≤ e.longStart := by
      unfold Dirent.longStart
      omega
    rcases h (13 * q - 1) (by omega) with ⟨x, hx, h₁, h₂⟩ | ⟨front, back, rfl, -, hj⟩
    · -- a slot that reaches the last place of its number is full
      have hle := x.longCount_le
      have hseq : x.longSeq ≠ 0 := fun h₀ => by
        have := hnum x hx h₀
        omega
      unfold Dirent.longStart at h₁ h₂
      exact Or.inl ⟨x, hx, by omega, by omega⟩
    · -- a terminator there stands behind twelve characters
      obtain ⟨x, hx, hxend⟩ := (runEnd_eq front).resolve_left (by omega)
      have hle := x.longCount_le
      have hcount' : x.longCount ≠ 0 := fun h₀ => by
        rw [Dirent.longEnd, if_pos h₀] at hxend
        omega
      have hseq : x.longSeq ≠ 0 := fun h₀ => hcount' (hnum x (List.mem_append_left _ hx) h₀)
      obtain ⟨pre, post, rfl⟩ := List.append_of_mem hx
      refine Or.inr ⟨pre, x, post ++ back, by simp, ?_⟩
      have hpre : ∀ y ∈ pre, y.longEnd ≤ x.longEnd := fun y hy => by
        rw [hxend]
        exact longEnd_le_runEnd (List.mem_append_left _ hy)
      rw [Dirent.longEnd, if_neg hcount', ← hj] at hxend
      unfold Dirent.longStart at hxend
      exact ⟨by omega, by omega, hpre⟩
  · intro h j hj
    obtain ⟨e, he, hend⟩ := (runEnd_eq run).resolve_left (by omega)
    have hcount : e.longCount ≠ 0 := fun h₀ => by
      rw [Dirent.longEnd, if_pos h₀] at hend
      omega
    rw [← hend, Dirent.longEnd, if_neg hcount] at hj
    by_cases hin : e.longStart ≤ j
    · exact Or.inl ⟨e, he, hin, hj⟩
    · have hq : j / 13 + 1 < e.longSeq := by
        unfold Dirent.longStart at hin
        omega
      rcases h e he (Nat.pos_of_ne_zero hcount) (j / 13 + 1) (by omega) hq with
        ⟨x, hx, hseq, hfull⟩ | ⟨front, x, back, rfl, hseq, hfull, hfront⟩
      · refine Or.inl ⟨x, hx, ?_⟩
        unfold Dirent.longStart
        rw [hseq, hfull]
        omega
      · have hstart : x.longStart = 13 * (j / 13) := by
          rw [Dirent.longStart, hseq, Nat.add_sub_cancel]
        by_cases hlast : j < x.longStart + 12
        · exact Or.inl ⟨x, by simp, by omega, by omega⟩
        · refine Or.inr ⟨front ++ [x], back, by simp, by simp, ?_⟩
          have hxend : x.longEnd = x.longStart + 12 := by
            rw [Dirent.longEnd, if_neg (by omega), hfull]
          have hfrontEnd : runEnd front ≤ x.longEnd := by
            rcases runEnd_eq front with h₀ | ⟨y, hy, hyend⟩
            · omega
            · rw [← hyend]
              exact hfront y hy
          rw [runEnd_concat, Nat.max_eq_right hfrontEnd]
          omega

/-! ### A walk -/

/-- What a walk has done to the accumulator: the last run of long slots says its length and which
bytes have been written. -/
structure TracesRun (slots : List Dirent) (t : LfnTrace) : Prop where
  len : t.lfn.len = runEnd (slots.rtakeWhile (·.isLong))
  terminated : t.lfn.buf t.lfn.len = 0
  since : ∀ j : ℕ, (j : ℤ) ∈ t.since ↔ RunWrites (slots.rtakeWhile (·.isLong)) j
  indices : ∀ i ∈ t.all, 0 ≤ i ∧ i ≤ 255

theorem LfnTrace.pass_long (t : LfnTrace) {e : Dirent} (h : e.isLong = true) :
    t.pass e = ⟨t.lfn.collect e, t.since ++ t.lfn.accesses e, t.all ++ t.lfn.accesses e⟩ := by
  rw [LfnTrace.pass, if_pos h]

theorem LfnTrace.pass_other (t : LfnTrace) {e : Dirent} (h : e.isLong = false) :
    t.pass e = ⟨t.lfn.reset, [], t.all⟩ := by
  rw [LfnTrace.pass, h, if_neg Bool.false_ne_true]

/-- The indices of a slot that stores within the buffer. -/
theorem mem_accesses {e : Dirent} (he : e.Numbered) (l : Lfn) (i : ℤ) : i ∈ l.accesses e ↔
    (∃ j : ℕ, i = j ∧ e.longStart ≤ j ∧ j < e.longStart + e.longCount) ∨ i = (max l.len e.longEnd : ℕ) := by
  rw [Lfn.accesses, List.mem_append, he.mem_lfnIndices, List.mem_singleton, he.collect_len]

theorem Lfn.reset_terminated (l : Lfn) : l.reset.buf l.reset.len = 0 := by
  simp [Lfn.reset]

/-- **A slot more.** -/
theorem TracesRun.pass {slots : List Dirent} {t : LfnTrace} (h : TracesRun slots t) {e : Dirent}
    (he : e.isLong = true → e.Numbered) : TracesRun (slots ++ [e]) (t.pass e) := by
  cases hlong : e.isLong with
  | true =>
    have hnum := he hlong
    rw [t.pass_long hlong]
    refine ⟨?_, ?_, fun j => ?_, fun i hi => ?_⟩
    · rw [List.rtakeWhile_concat_pos _ _ _ hlong, runEnd_concat, hnum.collect_len, h.len]
    · show Function.update _ _ _ _ = _
      exact Function.update_self _ _ _
    · rw [List.rtakeWhile_concat_pos _ _ _ hlong, runWrites_concat, runEnd_concat, List.mem_append, h.since j,
        mem_accesses hnum, h.len]
      simp only [Nat.cast_inj, exists_eq_left']
    · rcases List.mem_append.1 hi with hi | hi
      · exact h.indices i hi
      · rcases (mem_accesses hnum t.lfn i).1 hi with ⟨j, rfl, h₁, h₂⟩ | rfl
        · have := e.longStart_add_longCount_le (by omega)
          omega
        · have h₁ := runEnd_le (slots.rtakeWhile (·.isLong))
          have h₂ := e.longEnd_le
          rw [← h.len] at h₁
          omega
  | false =>
    rw [t.pass_other hlong]
    have hrun : (slots ++ [e]).rtakeWhile (·.isLong) = [] :=
      List.rtakeWhile_concat_neg _ _ _ (by rw [hlong]; exact Bool.false_ne_true)
    refine ⟨?_, ?_, fun j => ?_, h.indices⟩
    · rw [hrun]
      rfl
    · exact t.lfn.reset_terminated
    · rw [hrun]
      refine iff_of_false (by simp) ?_
      rintro (⟨x, hx, -⟩ | ⟨front, back, hsplit, hne, -⟩)
      · simp at hx
      · exact hne (List.append_eq_nil_iff.1 hsplit.symm).1

theorem tracesRun (l : Lfn) (slots : List Dirent) (hnum : ∀ e ∈ slots, e.isLong = true → e.Numbered) :
    TracesRun slots (lfnTrace l slots) := by
  induction slots using List.reverseRecOn with
  | nil =>
    refine ⟨rfl, l.reset_terminated, fun j => iff_of_false (by simp [lfnTrace]) ?_, by simp [lfnTrace]⟩
    rintro (⟨x, hx, -⟩ | ⟨front, back, hsplit, hne, -⟩)
    · simp at hx
    · exact hne (List.append_eq_nil_iff.1 hsplit.symm).1
  | append_singleton slots e ih =>
    rw [lfnTrace_concat]
    exact (ih fun x hx => hnum x (List.mem_append_left _ hx)).pass (hnum e (by simp))

/-- Indices are never forgotten. -/
theorem mem_all_of_mem {l : Lfn} {slots : List Dirent} {e : Dirent} (he : e ∈ slots) (hlong : e.isLong = true)
    {i : ℤ} (hi : i ∈ lfnIndices e lfnOffsets (((e 0).toNat % 64 : ℕ) * 13 - 13)) : i ∈ (lfnTrace l slots).all := by
  induction slots using List.reverseRecOn with
  | nil => simp at he
  | append_singleton slots x ih =>
    rw [lfnTrace_concat]
    rcases List.mem_append.1 he with he | he
    · unfold LfnTrace.pass
      split_ifs
      · exact List.mem_append_left _ (ih he)
      · exact ih he
    · rw [← List.mem_singleton.1 he, LfnTrace.pass_long _ hlong]
      exact List.mem_append_right _ (List.mem_append_left _ hi)

/-- **Long names are in bounds exactly where the slots are in order**: for every sequence of slots that
passes through `dir_walk`. -/
theorem lfn_inBounds_iff (l : Lfn) (slots : List Dirent) : LfnInBounds (lfnTrace l slots) ↔ SlotsOk slots := by
  have hrun : ∀ e ∈ slots.rtakeWhile (·.isLong), e ∈ slots ∧ e.isLong = true := fun e he =>
    ⟨(List.rtakeWhile_suffix _ _).subset he, List.mem_rtakeWhile_imp he⟩
  constructor
  · intro h
    have hnum : ∀ e ∈ slots, e.isLong = true → e.Numbered := by
      intro e he hlong hseq
      by_contra hcount
      have hmem : (-13 : ℤ) ∈ lfnIndices e lfnOffsets (((e 0).toNat % 64 : ℕ) * 13 - 13) := by
        rw [e.lfnIndices_zero hseq]
        exact List.mem_map.2 ⟨0, List.mem_range.2 (Nat.pos_of_ne_zero hcount), by simp⟩
      have := (h.indices _ (mem_all_of_mem he hlong hmem)).1
      omega
    have ht := tracesRun l slots hnum
    refine ⟨hnum, (runWrites_iff fun e he => hnum e (hrun e he).1 (hrun e he).2).1 fun j hj => ?_⟩
    exact (ht.since j).1 (h.written j (ht.len ▸ hj))
  · intro h
    have ht := tracesRun l slots h.numbered
    refine ⟨ht.indices, ht.len ▸ runEnd_le _, ht.terminated, fun j hj => (ht.since j).2 ?_⟩
    exact (runWrites_iff fun e he => h.numbered e (hrun e he).1 (hrun e he).2).2 h.filled j (ht.len ▸ hj)

/-- A slot of a long name with this number, and thirteen times the letter `a`. -/
def longSlot (seq : UInt8) : Dirent := fun i =>
  if i = 0 then seq else if i = 11 then 0x0F else if i ∈ lfnOffsets then 97 else 0

/-- **Slots that are not in order**: one with the number `0` stores before the buffer; and one with the
number `2`, if it comes alone, makes a name of 26 bytes of which it writes the last thirteen. -/
theorem lfn_out_of_bounds : ∃ l : Lfn,
    ((-13 : ℤ) ∈ (lfnTrace l [longSlot 0x40]).all ∧ ¬LfnInBounds (lfnTrace l [longSlot 0x40])) ∧
    ((lfnTrace l [longSlot 0x42]).lfn.len = 26 ∧ ¬LfnInBounds (lfnTrace l [longSlot 0x42])) := by
  refine ⟨⟨zeroSector, 0, false⟩, ⟨?_, fun h => ?_⟩, ?_, fun h => ?_⟩
  · decide +kernel
  · exact absurd (h.indices (-13) (by decide +kernel)).1 (by decide)
  · decide +kernel
  · exact absurd (h.written 0 (by decide +kernel)) (by decide +kernel)

end LighthOS
