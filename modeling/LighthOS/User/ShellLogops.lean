/-
# Logical operators of the shell

`run_logops` of `user/shell.c`: the line is split at `;`, `&&` and `||` outside quotes, and each segment
runs or not by the status of the one before.  What a segment does is a parameter: a function from
its text and the status that `$?` shows in it to its own status.

The reference splits the same way, but a `#` ends the line only at the start of a word, segments are
not cut, and empty ones change nothing (`refSegments`, `evalRef`).  The loop of the code is an
evaluation of its own list of segments (`logopsLoop_eq`), and the two agree for every such
function exactly where no segment is longer than the buffer or holds a `#` inside a word, and the
only empty segments stand behind `&&` (`runLogops_eq_ref_iff`).
-/

import LighthOS.Kernel.Path

namespace LighthOS

/-! ### `run_logops` -/

/-- `prev_op`. -/
inductive LogOp
  | start
  | semi
  | and
  | or
  deriving DecidableEq

/-- The blanks before a segment. -/
def isBlank (c : Char) : Bool := c == ' ' || c == '\t'

/-- Both kinds of quotes. -/
def isQuote (c : Char) : Bool := c == '"' || c == '\''

/-- `;`, `&&`, `||` or the end of the line, outside quotes. -/
def endsSegment (c : Char) (t : CString) : Bool :=
  c == '\n' || c == ';' || (c == '&' && t.head? == some '&') || (c == '|' && t.head? == some '|')

/-- The inner loop of `run_logops`: the segment, and the rest of the line from its end on. -/
def scanSegment : Option Char → CString → CString × CString
  | _, [] => ([], [])
  | some q, c :: t =>
      let (seg, rest) := scanSegment (if c = q then none else some q) t
      (c :: seg, rest)
  | none, c :: t =>
      if isQuote c then
        let (seg, rest) := scanSegment (some c) t
        (c :: seg, rest)
      else if c = '#' ∨ endsSegment c t then ([], c :: t)
      else
        let (seg, rest) := scanSegment none t
        (c :: seg, rest)

/-- The operator at the end of a segment, and what follows it. -/
def nextOp : CString → Option (LogOp × CString)
  | ';' :: line => some (.semi, line)
  | '&' :: '&' :: line => some (.and, line)
  | '|' :: '|' :: line => some (.or, line)
  | _ => none

/-- `should_run`. -/
def shouldRun (prevOp : LogOp) (st : ℤ) : Bool := !(prevOp == .and && st != 0) && !(prevOp == .or && st == 0)

section Run

variable (exec : CString → ℤ → ℤ)

/-- `run_line` on a segment: what is executed, with the status that `$?` shows, and the new status.
Nothing is executed for an empty line, and the result is 0. -/
def runSegment (seg : CString) (st : ℤ) : List (CString × ℤ) × ℤ :=
  if seg = [] then ([], 0) else ([(seg, st)], exec seg st)

/-- The loop of `run_logops`: the segments that are executed, each with the status that `$?` shows in
it, and the last status. -/
def logopsLoop : ℕ → LogOp → ℤ → CString → Option (List (CString × ℤ) × ℤ)
  | 0, _, _, _ => none
  | fuel + 1, prevOp, st, line =>
      let line := line.dropWhile isBlank
      if line.head? = none ∨ line.head? = some '\n' then some ([], st)
      else
        let (seg, rest) := scanSegment none line
        let (ran, st) := if shouldRun prevOp st then runSegment exec (seg.take 511) st else ([], st)
        match nextOp rest with
        | none => some (ran, st)
        | some (op, line) => (logopsLoop fuel op st line).map fun r => (ran ++ r.1, r.2)

/-- `run_logops`, which takes at most one round for each character and one more. -/
def runLogops (st : ℤ) (line : CString) : Option (List (CString × ℤ) × ℤ) :=
  logopsLoop exec (line.length + 1) .start st line

end Run

/-! ### The reference -/

/-- Behind these characters a word can start. -/
def isBreak (c : Char) : Bool := isBlank c || c == '|' || c == '>' || c == '<' || c == '&'

/-- A segment of the reference, where `start` says whether a word can start here.  A quoted word ends
with its quote, and quotes inside a word do not end it. -/
def refScan : Option Char → Bool → CString → CString × CString
  | _, _, [] => ([], [])
  | some q, start, c :: t =>
      let (seg, rest) := refScan (if c = q then none else some q) start t
      (c :: seg, rest)
  | none, start, c :: t =>
      if isQuote c then
        let (seg, rest) := refScan (some c) start t
        (c :: seg, rest)
      else if c = '#' ∧ start = true ∨ endsSegment c t then ([], c :: t)
      else
        let (seg, rest) := refScan none (isBreak c) t
        (c :: seg, rest)

/-- The segments of a line with their operators. -/
def splitWith (scan : CString → CString × CString) : ℕ → LogOp → CString → List (LogOp × CString)
  | 0, _, _ => []
  | fuel + 1, op, line =>
      let line := line.dropWhile isBlank
      if line.head? = none ∨ line.head? = some '\n' then []
      else (op, (scan line).1) :: match nextOp (scan line).2 with
        | none => []
        | some (op, line) => splitWith scan fuel op line

/-- The segments of the reference, of which there are at most as many as characters. -/
def refSegments (line : CString) : List (LogOp × CString) :=
  splitWith (refScan none true) (line.length + 1) .start line

/-- The left-associative evaluation: empty and skipped segments change nothing. -/
def evalRef (exec : CString → ℤ → ℤ) : List (LogOp × CString) → ℤ → List (CString × ℤ) × ℤ
  | [], st => ([], st)
  | (op, seg) :: segs, st =>
      if seg ≠ [] ∧ (op = .and → st = 0) ∧ (op = .or → st ≠ 0) then
        let (ran, last) := evalRef exec segs (exec seg st)
        ((seg, st) :: ran, last)
      else evalRef exec segs st

/-- A `#` outside quotes. -/
def HasHash : Option Char → CString → Prop
  | _, [] => False
  | some q, c :: t => HasHash (if c = q then none else some q) t
  | none, c :: t => if isQuote c then HasHash (some c) t else c = '#' ∨ HasHash none t

/-- A segment that the code takes as the reference does. -/
structure SegmentOk (s : LogOp × CString) : Prop where
  empty : s.2 = [] → s.1 = .and
  length : s.2.length ≤ 511
  hash : ¬ HasHash none s.2

/-! ### The loop as an evaluation -/

/-- The code's evaluation of its segments: an empty one that runs sets the status to 0. -/
def evalCode (exec : CString → ℤ → ℤ) : List (LogOp × CString) → ℤ → List (CString × ℤ) × ℤ
  | [], st => ([], st)
  | (op, seg) :: segs, st =>
      let r := if shouldRun op st then runSegment exec seg st else ([], st)
      (r.1 ++ (evalCode exec segs r.2).1, (evalCode exec segs r.2).2)

/-- The code's segments. -/
def codeScan (line : CString) : CString × CString := ((scanSegment none line).1.take 511, (scanSegment none line).2)

theorem length_scanSegment (q : Option Char) (t : CString) :
    (scanSegment q t).1.length + (scanSegment q t).2.length = t.length := by
  induction t generalizing q with
  | nil => cases q <;> rfl
  | cons c t ih =>
      cases q with
      | some q =>
          have := ih (if c = q then none else some q)
          simp only [scanSegment, List.length_cons]
          omega
      | none =>
          rw [scanSegment]
          split_ifs
          · have := ih (some c)
            simp only [List.length_cons]
            omega
          · simp
          · have := ih none
            simp only [List.length_cons]
            omega

theorem length_nextOp {rest line : CString} {op : LogOp} (h : nextOp rest = some (op, line)) :
    line.length < rest.length := by
  unfold nextOp at h
  split at h
  all_goals first
    | cases h; simp
    | cases h

/-- **The loop of `run_logops`** ends, and is the evaluation of its segments. -/
theorem logopsLoop_eq (exec : CString → ℤ → ℤ) {fuel : ℕ} (op : LogOp) (st : ℤ) {line : CString}
    (hfuel : line.length < fuel) :
    logopsLoop exec fuel op st line = some (evalCode exec (splitWith codeScan fuel op line) st) := by
  induction fuel generalizing op st line with
  | zero => cases hfuel
  | succ fuel ih =>
      rw [logopsLoop, splitWith]
      have hdrop : (line.dropWhile isBlank).length ≤ line.length := (List.dropWhile_suffix isBlank).length_le
      dsimp only
      by_cases hend : (line.dropWhile isBlank).head? = none ∨ (line.dropWhile isBlank).head? = some '\n'
      · rw [if_pos hend, if_pos hend]
        rfl
      · rw [if_neg hend, if_neg hend, evalCode]
        have hlen := length_scanSegment none (line.dropWhile isBlank)
        simp only [codeScan]
        cases hnext : nextOp (scanSegment none (line.dropWhile isBlank)).2 with
        | none => simp [evalCode]
        | some r =>
            obtain ⟨op', line'⟩ := r
            have hlt := length_nextOp hnext
            dsimp only
            rw [ih op' _ (by omega), Option.map_some]

/-! ### Where the two agree -/

theorem shouldRun_iff {op : LogOp} {st : ℤ} : shouldRun op st = true ↔ (op = .and → st = 0) ∧ (op = .or → st ≠ 0) := by
  unfold shouldRun
  cases op <;> simp

section Scan

variable {c : Char} {t : CString} {start : Bool}

theorem scanSegment_stop (hq : ¬ isQuote c = true) (h : c = '#' ∨ endsSegment c t = true) :
    scanSegment none (c :: t) = ([], c :: t) := by
  rw [scanSegment, if_neg hq, if_pos h]

theorem scanSegment_cons (hq : ¬ isQuote c = true) (h : ¬ (c = '#' ∨ endsSegment c t = true)) :
    scanSegment none (c :: t) = (c :: (scanSegment none t).1, (scanSegment none t).2) := by
  rw [scanSegment, if_neg hq, if_neg h]

theorem refScan_stop (hq : ¬ isQuote c = true) (h : c = '#' ∧ start = true ∨ endsSegment c t = true) :
    refScan none start (c :: t) = ([], c :: t) := by
  rw [refScan, if_neg hq, if_pos h]

theorem refScan_cons (hq : ¬ isQuote c = true) (h : ¬ (c = '#' ∧ start = true ∨ endsSegment c t = true)) :
    refScan none start (c :: t) = (c :: (refScan none (isBreak c) t).1, (refScan none (isBreak c) t).2) := by
  rw [refScan, if_neg hq, if_neg h]

end Scan

/-- **The two scans** differ only where the segment of the reference holds a `#`: the code's ends there. -/
theorem scan_cases (q : Option Char) (start : Bool) (t : CString) :
    (¬ HasHash q (refScan q start t).1 ∧ scanSegment q t = refScan q start t) ∨
      (HasHash q (refScan q start t).1 ∧ (scanSegment q t).1.length < (refScan q start t).1.length) := by
  induction t generalizing q start with
  | nil => cases q <;> exact .inl ⟨id, rfl⟩
  | cons c t ih =>
      cases q with
      | some q =>
          rcases ih (if c = q then none else some q) start with ⟨hhash, heq⟩ | ⟨hhash, hlt⟩
          · exact .inl ⟨hhash, by rw [scanSegment, refScan, heq]⟩
          · exact .inr ⟨hhash, Nat.succ_lt_succ hlt⟩
      | none =>
          by_cases hq : isQuote c = true
          · rw [scanSegment, refScan, if_pos hq, if_pos hq]
            rcases ih (some c) start with ⟨hhash, heq⟩ | ⟨hhash, hlt⟩
            · refine .inl ⟨?_, by rw [heq]⟩
              rw [HasHash, if_pos hq]
              exact hhash
            · refine .inr ⟨?_, Nat.succ_lt_succ hlt⟩
              rw [HasHash, if_pos hq]
              exact hhash
          by_cases hend : endsSegment c t = true
          · rw [scanSegment_stop hq (.inr hend), refScan_stop hq (.inr hend)]
            exact .inl ⟨id, rfl⟩
          by_cases hc : c = '#'
          · rw [scanSegment_stop hq (.inl hc)]
            cases start with
            | true =>
                rw [refScan_stop hq (.inl ⟨hc, rfl⟩)]
                exact .inl ⟨id, rfl⟩
            | false =>
                rw [refScan_cons hq (by simp [hend])]
                refine .inr ⟨?_, Nat.succ_pos _⟩
                rw [HasHash, if_neg hq]
                exact .inl hc
          · rw [scanSegment_cons hq (by simp [hc, hend]), refScan_cons hq (by simp [hc, hend])]
            rcases ih none (isBreak c) with ⟨hhash, heq⟩ | ⟨hhash, hlt⟩
            · refine .inl ⟨?_, by rw [heq]⟩
              rw [HasHash, if_neg hq]
              exact not_or.2 ⟨hc, hhash⟩
            · refine .inr ⟨?_, Nat.succ_lt_succ hlt⟩
              rw [HasHash, if_neg hq]
              exact .inr hhash

/-- An empty segment of the reference is one of the code, and the other way round. -/
theorem scan_eq_nil_iff (t : CString) : (refScan none true t).1 = [] ↔ (codeScan t).1 = [] := by
  rw [codeScan, List.take_eq_nil_iff, or_iff_right (by decide)]
  cases t with
  | nil => rfl
  | cons c t =>
      by_cases hq : isQuote c = true
      · rw [scanSegment, refScan, if_pos hq, if_pos hq]
        exact iff_of_false (List.cons_ne_nil _ _) (List.cons_ne_nil _ _)
      by_cases hstop : c = '#' ∨ endsSegment c t = true
      · rw [scanSegment_stop hq hstop, refScan_stop hq (by simpa using hstop)]
      · rw [scanSegment_cons hq hstop, refScan_cons hq (by simpa using hstop)]
        exact iff_of_false (List.cons_ne_nil _ _) (List.cons_ne_nil _ _)

theorem codeScan_eq {t : CString} (hlen : (refScan none true t).1.length ≤ 511)
    (hhash : ¬ HasHash none (refScan none true t).1) : codeScan t = refScan none true t := by
  rcases scan_cases none true t with ⟨-, heq⟩ | ⟨hhash', -⟩
  · rw [codeScan, heq, List.take_of_length_le hlen]
  · exact absurd hhash' hhash

theorem splitWith_eq {fuel : ℕ} {op : LogOp} {line : CString}
    (h : ∀ s ∈ splitWith (refScan none true) fuel op line, SegmentOk s) :
    splitWith codeScan fuel op line = splitWith (refScan none true) fuel op line := by
  induction fuel generalizing op line with
  | zero => rfl
  | succ fuel ih =>
      rw [splitWith] at h ⊢
      rw [splitWith]
      by_cases hend : (line.dropWhile isBlank).head? = none ∨ (line.dropWhile isBlank).head? = some '\n'
      · rw [if_pos hend, if_pos hend]
      · rw [if_neg hend] at h ⊢
        rw [if_neg hend]
        obtain ⟨hok, hrest⟩ := List.forall_mem_cons.1 h
        rw [codeScan_eq hok.length hok.hash]
        cases hnext : nextOp (refScan none true (line.dropWhile isBlank)).2 with
        | none => rfl
        | some r =>
            rw [hnext] at hrest
            exact congrArg _ (ih hrest)

/-- Empty segments behind `&&` do nothing. -/
theorem evalCode_eq_ref (exec : CString → ℤ → ℤ) {segs : List (LogOp × CString)}
    (h : ∀ s ∈ segs, s.2 = [] → s.1 = .and) (st : ℤ) : evalCode exec segs st = evalRef exec segs st := by
  induction segs generalizing st with
  | nil => rfl
  | cons s segs ih =>
      obtain ⟨op, seg⟩ := s
      obtain ⟨hempty, hrest⟩ := List.forall_mem_cons.1 h
      rw [evalCode, evalRef]
      by_cases hrun : shouldRun op st = true
      · rw [if_pos hrun, runSegment]
        by_cases hseg : seg = []
        · have hzero : st = 0 := (shouldRun_iff.1 hrun).1 (hempty hseg)
          rw [if_pos hseg, if_neg fun h => h.1 hseg, hzero, ← ih hrest]
          rfl
        · rw [if_neg hseg, if_pos ⟨hseg, shouldRun_iff.1 hrun⟩, ih hrest]
          rfl
      · rw [if_neg hrun, if_neg fun h => hrun (shouldRun_iff.2 h.2), ← ih hrest]
        rfl

/-! ### Where they do not -/

/-- With statuses that are all `k` every `$?` shows `k`. -/
theorem evalRef_const (k : ℤ) (segs : List (LogOp × CString)) :
    (∀ e ∈ (evalRef (fun _ _ => k) segs k).1, e.2 = k) ∧ (evalRef (fun _ _ => k) segs k).2 = k := by
  induction segs with
  | nil => exact ⟨nofun, rfl⟩
  | cons s segs ih =>
      obtain ⟨op, seg⟩ := s
      rw [evalRef]
      split_ifs
      · exact ⟨List.forall_mem_cons.2 ⟨rfl, ih.1⟩, ih.2⟩
      · exact ih

/-- A status of 0 shows in some segment or in the end. -/
theorem evalCode_zero (exec : CString → ℤ → ℤ) (segs : List (LogOp × CString)) :
    (∃ e ∈ (evalCode exec segs 0).1, e.2 = 0) ∨ (evalCode exec segs 0).2 = 0 := by
  induction segs with
  | nil => exact .inr rfl
  | cons s segs ih =>
      obtain ⟨op, seg⟩ := s
      rw [evalCode]
      by_cases hrun : shouldRun op 0 = true
      · rw [if_pos hrun, runSegment]
        by_cases hseg : seg = []
        · rw [if_pos hseg]
          exact ih
        · rw [if_neg hseg]
          exact .inl ⟨(seg, 0), List.mem_append_left _ List.mem_cons_self, rfl⟩
      · rw [if_neg hrun]
        exact ih

/-- Once the code has lost a status of 1 it never agrees with the reference again. -/
theorem evalCode_ne_ref (segs segs' : List (LogOp × CString)) :
    evalCode (fun _ _ => 1) segs 0 ≠ evalRef (fun _ _ => 1) segs' 1 := by
  intro heq
  obtain ⟨hshown, hlast⟩ := evalRef_const 1 segs'
  rw [← heq] at hshown hlast
  rcases evalCode_zero (fun _ _ => 1) segs with ⟨e, he, hzero⟩ | hzero
  · exact absurd ((hshown e he).symm.trans hzero) (by decide)
  · exact absurd (hlast.symm.trans hzero) (by decide)

/-- **One segment:** where the evaluations agree for the constant statuses 0 and 1, the first segment is as
in the reference, and they agree on the rest. -/
theorem segment_agrees {op : LogOp} {seg seg' : CString} {segs segs' : List (LogOp × CString)}
    (hnil : seg = [] ↔ seg' = [])
    (h : ∀ k : ℤ, k = 0 ∨ k = 1 → evalCode (fun _ _ => k) ((op, seg') :: segs') k =
      evalRef (fun _ _ => k) ((op, seg) :: segs) k) :
    seg' = seg ∧ (seg = [] → op = .and) ∧
      ∀ k : ℤ, k = 0 ∨ k = 1 → evalCode (fun _ _ => k) segs' k = evalRef (fun _ _ => k) segs k := by
  by_cases hseg : seg = []
  · have hseg' := hnil.1 hseg
    have hop : op = .and := by
      by_contra hop
      have hone := h 1 (.inr rfl)
      have hrun : shouldRun op 1 = true := shouldRun_iff.2 ⟨fun h => absurd h hop, fun _ => by decide⟩
      rw [evalCode, if_pos hrun, runSegment, if_pos hseg', evalRef, if_neg fun h => h.1 hseg] at hone
      exact evalCode_ne_ref _ _ hone
    refine ⟨hseg'.trans hseg.symm, fun _ => hop, fun k hk => ?_⟩
    have hk' := h k hk
    rw [evalRef, if_neg fun h => h.1 hseg, evalCode, runSegment, if_pos hseg', hop] at hk'
    rcases hk with rfl | rfl <;> exact hk'
  · have hseg' := mt hnil.2 hseg
    have hk : ∀ k : ℤ, shouldRun op k = true → evalCode (fun _ _ => k) ((op, seg') :: segs') k =
        evalRef (fun _ _ => k) ((op, seg) :: segs) k → seg' = seg ∧
          evalCode (fun _ _ => k) segs' k = evalRef (fun _ _ => k) segs k := by
      intro k hrun heq
      rw [evalCode, evalRef, if_pos hrun, if_pos ⟨hseg, shouldRun_iff.1 hrun⟩, runSegment, if_neg hseg'] at heq
      simp only [List.cons_append, List.nil_append, Prod.mk.injEq, List.cons.injEq, and_true] at heq
      exact ⟨heq.1.1, Prod.ext heq.1.2 heq.2⟩
    obtain ⟨k₀, hk₀, hrun₀⟩ : ∃ k : ℤ, (k = 0 ∨ k = 1) ∧ shouldRun op k = true := by
      cases op with
      | or => exact ⟨1, .inr rfl, by decide⟩
      | _ => exact ⟨0, .inl rfl, by decide⟩
    refine ⟨(hk k₀ hrun₀ (h k₀ hk₀)).1, fun h => absurd h hseg, fun k hk' => ?_⟩
    by_cases hrun : shouldRun op k = true
    · exact (hk k hrun (h k hk')).2
    · have heq := h k hk'
      rwa [evalCode, evalRef, if_neg hrun, if_neg fun h => hrun (shouldRun_iff.2 h.2)] at heq

theorem segmentOk_of_agree {fuel : ℕ} {op : LogOp} {line : CString}
    (h : ∀ k : ℤ, k = 0 ∨ k = 1 → evalCode (fun _ _ => k) (splitWith codeScan fuel op line) k =
      evalRef (fun _ _ => k) (splitWith (refScan none true) fuel op line) k) :
    ∀ s ∈ splitWith (refScan none true) fuel op line, SegmentOk s := by
  induction fuel generalizing op line with
  | zero => exact nofun
  | succ fuel ih =>
      simp only [splitWith] at h ⊢
      by_cases hend : (line.dropWhile isBlank).head? = none ∨ (line.dropWhile isBlank).head? = some '\n'
      · rw [if_pos hend]
        exact nofun
      simp only [if_neg hend] at h ⊢
      obtain ⟨hseg, hop, hrest⟩ := segment_agrees (scan_eq_nil_iff _) h
      have hok : SegmentOk (op, (refScan none true (line.dropWhile isBlank)).1) := by
        have hlen := congrArg List.length hseg
        rw [codeScan, List.length_take] at hlen
        rcases scan_cases none true (line.dropWhile isBlank) with ⟨hhash, heq⟩ | ⟨-, hlt⟩
        · exact ⟨hop, by dsimp only; omega, hhash⟩
        · omega
      refine List.forall_mem_cons.2 ⟨hok, ?_⟩
      rw [codeScan_eq hok.length hok.hash] at hrest
      cases hnext : nextOp (refScan none true (line.dropWhile isBlank)).2 with
      | none => exact nofun
      | some r =>
          simp only [hnext] at hrest
          exact ih hrest

/-- **Logical operators:** `run_logops` executes the segments of the reference, with the same `$?` and the
same result for every function from segments to statuses, exactly where no segment is longer than
511 characters or holds a `#` inside a word, and the empty segments stand behind `&&`. -/
theorem runLogops_eq_ref_iff (line : CString) :
    (∀ exec st, runLogops exec st line = some (evalRef exec (refSegments line) st)) ↔
      ∀ s ∈ refSegments line, SegmentOk s := by
  have hrun : ∀ exec st, runLogops exec st line =
      some (evalCode exec (splitWith codeScan (line.length + 1) .start line) st) := fun exec st =>
    logopsLoop_eq exec .start st (Nat.lt_succ_self _)
  constructor
  · intro h
    refine segmentOk_of_agree fun k _ => ?_
    exact Option.some.inj ((hrun _ k).symm.trans (h _ k))
  · intro h exec st
    unfold refSegments at h ⊢
    rw [hrun, splitWith_eq h, evalCode_eq_ref exec fun s hs => (h s hs).empty]

/-- **An empty segment** and a comment reset the status, and a `#` inside a word ends the line. -/
theorem empty_segment_resets : runLogops (fun _ _ => 1) 0 "a;;b".toList =
      some ([("a".toList, 0), ("b".toList, 0)], 1) ∧
    evalRef (fun _ _ => 1) (refSegments "a;;b".toList) 0 = ([("a".toList, 0), ("b".toList, 1)], 1) ∧
    runLogops (fun _ _ => 1) 0 "a; # b".toList = some ([("a".toList, 0)], 0) ∧
    evalRef (fun _ _ => 1) (refSegments "a; # b".toList) 0 = ([("a".toList, 0)], 1) ∧
    runLogops (fun _ _ => 1) 0 "a#b".toList = some ([("a".toList, 0)], 1) ∧
    evalRef (fun _ _ => 1) (refSegments "a#b".toList) 0 = ([("a#b".toList, 0)], 1) :=
  ⟨by decide, by decide, by decide, by decide, by decide, by decide⟩

end LighthOS
