/-
# The editor

`load_file`, `save_file` and `do_search` of `user/vi.c`.  `lines` has 512 rows of 256 bytes,
the first `num_lines` of which are the document.  A row is the bytes that were stored to it,
and its text ends before the first NUL.

The loader reads the file in chunks and drops an empty last row, which it takes for what is
behind the last newline.  With 512 rows there is no row behind the last newline, and an empty
last row is lost (`viLoadFile_saveFile_iff`).

The search goes through the rows from the cursor on, in one of two directions and around the
end of the document, and stops at the occurrence that is nearest (`viDoSearch_nearest`).
-/

import LighthOS.Kernel.Path

namespace LighthOS
namespace Vi

/-- The text of a row. -/
def rowText (row : CString) : CString := row.takeWhile (· != '\x00')

/-! ### `load_file` and `save_file` -/

/-- The rows before the last one, and what was stored to the last one: `num_lines` is one more
than the number of the former, and `col` is the length of the latter. -/
structure Loading where
  done : List CString
  cur : CString

namespace Loading

/-- A byte of the file. -/
def byte (s : Loading) (c : Char) : Loading :=
  if c = '\n' then if s.done.length + 1 < 512 then ⟨s.done ++ [s.cur], []⟩ else s
  else if s.cur.length < 255 then ⟨s.done, s.cur ++ [c]⟩ else s

/-- The end of the file: an empty last row is dropped. -/
def finish (s : Loading) : List CString :=
  if 1 < s.done.length + 1 ∧ s.cur.headD '\x00' = '\x00' then s.done else s.done ++ [s.cur]

end Loading

/-- `load_file`, of a file that `sys_read` gives in these pieces. -/
def loadFile (reads : List CString) : List CString :=
  ((reads.takeWhile (· ≠ [])).foldl (fun s (buf : CString) => buf.foldl Loading.byte s) ⟨[], []⟩).finish

/-- `save_file`: what it writes. -/
def saveFile (lines : List CString) : CString := lines.flatMap fun row => rowText row ++ ['\n']

/-- The text of a row that is no longer than a row can be. -/
structure IsLine (l : CString) : Prop where
  length_lt : l.length < 256
  no_newline : '\n' ∉ l
  no_nul : '\x00' ∉ l

theorem rowText_eq_self {l : CString} (h : '\x00' ∉ l) : rowText l = l := by
  refine List.takeWhile_eq_self_iff.2 fun c hc => ?_
  simp only [bne_iff_ne, ne_eq]
  rintro rfl
  exact h hc

/-- The bytes of a line go to the last row. -/
theorem foldl_byte_text (l : CString) (done : List CString) (cur : CString) (hn : '\n' ∉ l)
    (hlen : cur.length + l.length < 256) :
    l.foldl Loading.byte ⟨done, cur⟩ = ⟨done, cur ++ l⟩ := by
  induction l generalizing cur with
  | nil => simp
  | cons c l ih =>
      obtain ⟨hc, hn⟩ := not_or.1 (List.mem_cons.not.1 hn)
      rw [List.length_cons] at hlen
      have hbyte : Loading.byte ⟨done, cur⟩ c = ⟨done, cur ++ [c]⟩ := by
        simp only [Loading.byte, if_neg (Ne.symm hc)]
        rw [if_pos (by omega)]
      rw [List.foldl_cons, hbyte, ih (cur ++ [c]) hn (by simp; omega), List.append_assoc]
      rfl

/-- A saved line, where there is a row behind it and where there is none. -/
theorem foldl_byte_line {l : CString} (h : IsLine l) (done : List CString) :
    (rowText l ++ ['\n']).foldl Loading.byte ⟨done, []⟩ =
      if done.length + 1 < 512 then ⟨done ++ [l], []⟩ else ⟨done, l⟩ := by
  have hlen := h.length_lt
  rw [rowText_eq_self h.no_nul, List.foldl_append, foldl_byte_text l done [] h.no_newline (by simpa using hlen)]
  simp [Loading.byte]

theorem foldl_byte_saveFile (lines : List CString) (hl : ∀ l ∈ lines, IsLine l) (done : List CString)
    (hlen : done.length + lines.length ≤ 511) :
    (saveFile lines).foldl Loading.byte ⟨done, []⟩ = ⟨done ++ lines, []⟩ := by
  induction lines generalizing done with
  | nil => simp [saveFile]
  | cons l lines ih =>
      rw [List.length_cons] at hlen
      have hsplit : saveFile (l :: lines) = (rowText l ++ ['\n']) ++ saveFile lines := rfl
      rw [hsplit, List.foldl_append, foldl_byte_line (hl l (by simp)), if_pos (by omega),
        ih (fun l' h => hl l' (by simp [h])) (done ++ [l]) (by simp; omega), List.append_assoc]
      rfl

theorem loadFile_eq_foldl {reads : List CString} (h : ∀ buf ∈ reads, buf ≠ []) :
    loadFile reads = (reads.flatten.foldl Loading.byte ⟨[], []⟩).finish := by
  have hall : reads.takeWhile (· ≠ []) = reads :=
    List.takeWhile_eq_self_iff.2 fun buf hbuf => by simpa using h buf hbuf
  rw [loadFile, hall, List.foldl_flatten]

/-- **What is loaded of a saved document:** all of it, but for an empty row in the last place. -/
theorem loadFile_saveFile {lines reads : List CString} (hne : lines ≠ []) (hlen : lines.length ≤ 512)
    (hl : ∀ l ∈ lines, IsLine l) (hreads : ∀ buf ∈ reads, buf ≠ []) (hfile : reads.flatten = saveFile lines) :
    loadFile reads = if lines.length = 512 ∧ lines.getLast? = some [] then lines.dropLast else lines := by
  rw [loadFile_eq_foldl hreads, hfile]
  rcases Nat.lt_or_ge lines.length 512 with hlt | hge
  · rw [foldl_byte_saveFile lines hl [] (by simp; omega), if_neg (by omega)]
    have hpos := List.length_pos_of_ne_nil hne
    simp only [Loading.finish, List.nil_append, List.headD_nil]
    rw [if_pos ⟨by omega, trivial⟩]
  · obtain ⟨init, last, rfl⟩ := (List.eq_nil_or_concat' lines).resolve_left hne
    have hinit : init.length = 511 := by
      rw [List.length_append, List.length_singleton] at hge hlen
      omega
    have hlast := hl last (by simp)
    have hsplit : saveFile (init ++ [last]) = saveFile init ++ (rowText last ++ ['\n']) := by
      simp [saveFile]
    rw [hsplit, List.foldl_append, foldl_byte_saveFile init (fun l h => hl l (by simp [h])) [] (by simp; omega),
      foldl_byte_line hlast, if_neg (by simp; omega)]
    simp only [Loading.finish, List.nil_append, List.length_append, hinit, List.length_singleton,
      List.getLast?_concat, List.dropLast_concat, Option.some.injEq]
    cases last with
    | nil => simp
    | cons c last =>
        have hc : c ≠ '\x00' := fun h => hlast.no_nul (by simp [h])
        simp [hc]

/-- **What was saved is loaded again, unless 512 rows end with an empty one:** for every
document whose rows are lines, and for every way in which `sys_read` divides the file. -/
theorem viLoadFile_saveFile_iff (lines reads : List CString) (hne : lines ≠ []) (hlen : lines.length ≤ 512)
    (hl : ∀ l ∈ lines, IsLine l) (hreads : ∀ buf ∈ reads, buf ≠ [] ∧ buf.length ≤ 256)
    (hfile : reads.flatten = saveFile lines) :
    loadFile reads = lines ↔ ¬ (lines.length = 512 ∧ lines.getLast? = some []) := by
  rw [loadFile_saveFile hne hlen hl (fun buf h => (hreads buf h).1) hfile]
  split_ifs with hfull
  · refine iff_of_false (fun heq => ?_) (not_not_intro hfull)
    have := congrArg List.length heq
    rw [List.length_dropLast] at this
    omega
  · exact iff_of_true rfl hfull

/-- The hypotheses of `viLoadFile_saveFile_iff` are satisfiable: two lines, read in pieces that
end inside a line. -/
theorem viLoadFile_two_lines : loadFile ["a".toList, "b\n\n".toList] = ["ab".toList, []] := by
  refine (viLoadFile_saveFile_iff ["ab".toList, []] _ (by simp) (by simp) (fun l h => ?_) (by simp)
    (by decide)).2 (by simp)
  simp only [List.mem_cons, List.not_mem_nil, or_false] at h
  rcases h with rfl | rfl
  · exact ⟨by decide, by decide, by decide⟩
  · exact ⟨by decide, by decide, by decide⟩

/-- Of 512 empty lines, 511 are loaded. -/
theorem viLoadFile_drops_last : ∃ lines reads : List CString,
    lines.length = 512 ∧ (∀ l ∈ lines, IsLine l) ∧ (∀ buf ∈ reads, buf ≠ [] ∧ buf.length ≤ 256) ∧
      reads.flatten = saveFile lines ∧ (loadFile reads).length = 511 := by
  have hl : ∀ l ∈ List.replicate 512 ([] : CString), IsLine l := fun l h => by
    rw [List.eq_of_mem_replicate h]
    exact ⟨by decide, by decide, by decide⟩
  have hreads : ∀ buf ∈ List.replicate 2 (List.replicate 256 '\n'), buf ≠ [] ∧ buf.length ≤ 256 := fun buf h => by
    rw [List.eq_of_mem_replicate h]
    exact ⟨List.cons_ne_nil _ _, List.length_replicate.le⟩
  have hfile : (List.replicate 2 (List.replicate 256 '\n')).flatten =
      saveFile (List.replicate 512 ([] : CString)) := by decide +kernel
  have hlen : (List.replicate 512 ([] : CString)).length = 512 := List.length_replicate
  have hne : List.replicate 512 ([] : CString) ≠ [] := List.ne_nil_of_length_pos (by rw [hlen]; decide)
  refine ⟨_, _, hlen, hl, hreads, hfile, ?_⟩
  rw [loadFile_saveFile hne hlen.le hl (fun buf h => (hreads buf h).1) hfile,
    if_pos ⟨hlen, by rw [List.getLast?_replicate]; rfl⟩, List.length_dropLast, hlen]

end Vi

/-! ### `do_search` -/

/-- `strncmp(a, b, n) == 0`. -/
def strncmpEq : ℕ → CString → CString → Bool
  | 0, _, _ => true
  | n + 1, a, b =>
      a.headD '\x00' == b.headD '\x00' && (a.headD '\x00' == '\x00' || strncmpEq n a.tail b.tail)

/-- The document, the cursor and `last_pattern`. -/
structure Vi where
  lines : List CString
  cy : ℤ
  cx : ℤ
  lastPattern : CString

namespace Vi

variable (e : Vi)

/-- `num_lines`. -/
def numLines : ℤ := e.lines.length

/-- The text of a row of the document. -/
def line (row : ℤ) : CString := rowText (e.lines.getD row.toNat [])

/-- `linelen`. -/
def linelen (row : ℤ) : ℤ := (e.line row).length

/-- `last_pattern_len`. -/
def patternLen : ℤ := e.lastPattern.length

/-- Whether the pattern is at a column. -/
def matchAt (row : ℤ) (i : ℕ) : Bool := strncmpEq e.lastPattern.length ((e.line row).drop i) e.lastPattern

/-- A loop over `n` columns from `i` on. -/
def scanUp (p : ℕ → Bool) : ℕ → ℕ → Option ℕ
  | 0, _ => none
  | n + 1, i => if p i then some i else scanUp p n (i + 1)

/-- A loop over the columns below `n`, downwards. -/
def scanDown (p : ℕ → Bool) : ℕ → Option ℕ
  | 0 => none
  | n + 1 => if p n then some n else scanDown p n

/-- The start of a round: the row and the column that are scanned. -/
def clamp (dir row col : ℤ) : ℤ × ℤ :=
  if 0 < dir then
    let col := if col < 0 then 0 else col
    let (row, col) := if e.linelen row < col then (row + 1, 0) else (row, col)
    if e.numLines ≤ row then (0, 0) else (row, col)
  else if col < 0 then
    let row := if row - 1 < 0 then e.numLines - 1 else row - 1
    (row, e.linelen row)
  else (row, col)

/-- The scan of a row. -/
def scanRow (dir row col : ℤ) : Option ℕ :=
  if 0 < dir then scanUp (e.matchAt row) (e.linelen row - e.patternLen + 1 - col).toNat col.toNat
  else scanDown (e.matchAt row) (min col (e.linelen row - e.patternLen) + 1).toNat

/-- The row and the column of the next round. -/
def advance (dir row : ℤ) : ℤ × ℤ :=
  if 0 < dir then (if e.numLines ≤ row + 1 then 0 else row + 1, 0)
  else
    let row := if row - 1 < 0 then e.numLines - 1 else row - 1
    (row, e.linelen row)

/-- The loop of `do_search`. -/
def searchLoop (dir : ℤ) : ℕ → ℤ → ℤ → Option (ℤ × ℕ)
  | 0, _, _ => none
  | steps + 1, row, col =>
      let (row, col) := e.clamp dir row col
      match e.scanRow dir row col with
      | some i => some (row, i)
      | none =>
          let (row, col) := e.advance dir row
          if row = e.cy ∧ 0 < dir ∧ e.cx + dir < col then none else searchLoop dir steps row col

/-- `do_search`: what it returns, and the editor. -/
def doSearch (dir : ℤ) : ℤ × Vi :=
  if e.patternLen = 0 then (0, e)
  else match e.searchLoop dir (e.numLines + 2).toNat e.cy (e.cx + dir) with
    | some (row, i) => (1, { e with cy := row, cx := i })
    | none => (0, e)

/-! ### The nearest occurrence -/

/-- The cursor is on a row, or behind its end. -/
structure Ok : Prop where
  cy_nonneg : 0 ≤ e.cy
  cy_lt : e.cy < e.numLines
  cx_nonneg : 0 ≤ e.cx
  cx_le : e.cx ≤ e.linelen e.cy

/-- The pattern occurs at a row and a column. -/
def Occurs (p : ℕ × ℕ) : Prop := p.1 < e.lines.length ∧ e.lastPattern <+: (e.line p.1).drop p.2

/-- The order of the document. -/
def Before (p q : ℕ × ℕ) : Prop := p.1 < q.1 ∨ p.1 = q.1 ∧ p.2 < q.2

/-- The first one behind `old`, or the first of all where there is none behind it. -/
def FirstAfter (occ : ℕ × ℕ → Prop) (old p : ℕ × ℕ) : Prop :=
  occ p ∧ ∀ q, occ q → ¬ (Before old q ∧ Before q p) ∧ (¬ Before old p → ¬ Before old q ∧ ¬ Before q p)

/-- The last one before `old`, or the last of all where there is none before it. -/
def LastBefore (occ : ℕ × ℕ → Prop) (old p : ℕ × ℕ) : Prop :=
  occ p ∧ ∀ q, occ q → ¬ (Before q old ∧ Before p q) ∧ (¬ Before p old → ¬ Before q old ∧ ¬ Before p q)

theorem strncmpEq_iff {pat : CString} (hnul : '\x00' ∉ pat) (a : CString) :
    strncmpEq pat.length a pat = true ↔ pat <+: a := by
  induction pat generalizing a with
  | nil => simp [strncmpEq]
  | cons c pat ih =>
      obtain ⟨hc, hnul⟩ := not_or.1 (List.mem_cons.not.1 hnul)
      cases a with
      | nil => simp [strncmpEq, hc]
      | cons b a =>
          simp only [List.length_cons, strncmpEq, List.headD_cons, List.tail_cons, Bool.and_eq_true, beq_iff_eq,
            Bool.or_eq_true, ih hnul, List.cons_prefix_cons]
          constructor
          · rintro ⟨rfl, h | h⟩
            · exact absurd h.symm hc
            · exact ⟨rfl, h⟩
          · rintro ⟨rfl, h⟩
            exact ⟨rfl, .inr h⟩

theorem scanUp_some {p : ℕ → Bool} {n i j : ℕ} (h : scanUp p n i = some j) :
    i ≤ j ∧ p j = true ∧ ∀ k, i ≤ k → k < j → p k = false := by
  induction n generalizing i with
  | zero => simp [scanUp] at h
  | succ n ih =>
      unfold scanUp at h
      split_ifs at h with hp
      · obtain rfl := Option.some.inj h
        exact ⟨le_refl _, hp, fun k h1 h2 => by omega⟩
      · obtain ⟨hle, hj, hmin⟩ := ih h
        refine ⟨by omega, hj, fun k h1 h2 => ?_⟩
        rcases Nat.eq_or_lt_of_le h1 with rfl | h1
        · exact Bool.eq_false_iff.2 hp
        · exact hmin k h1 h2

theorem scanUp_none {p : ℕ → Bool} {n i : ℕ} (h : scanUp p n i = none) (k : ℕ) (h1 : i ≤ k) (h2 : k < i + n) :
    p k = false := by
  induction n generalizing i with
  | zero => omega
  | succ n ih =>
      unfold scanUp at h
      split_ifs at h with hp
      rcases Nat.eq_or_lt_of_le h1 with rfl | h1
      · exact Bool.eq_false_iff.2 hp
      · exact ih h h1 (by omega)

theorem scanDown_some {p : ℕ → Bool} {n j : ℕ} (h : scanDown p n = some j) :
    j < n ∧ p j = true ∧ ∀ k, j < k → k < n → p k = false := by
  induction n with
  | zero => simp [scanDown] at h
  | succ n ih =>
      unfold scanDown at h
      split_ifs at h with hp
      · obtain rfl := Option.some.inj h
        exact ⟨Nat.lt_succ_self _, hp, fun k h1 h2 => by omega⟩
      · obtain ⟨hlt, hj, hmax⟩ := ih h
        refine ⟨by omega, hj, fun k h1 h2 => ?_⟩
        rcases Nat.eq_or_lt_of_le (Nat.lt_succ_iff.1 h2) with rfl | h2
        · exact Bool.eq_false_iff.2 hp
        · exact hmax k h1 h2

theorem scanDown_none {p : ℕ → Bool} {n : ℕ} (h : scanDown p n = none) (k : ℕ) (hk : k < n) : p k = false := by
  induction n with
  | zero => omega
  | succ n ih =>
      unfold scanDown at h
      split_ifs at h with hp
      rcases Nat.eq_or_lt_of_le (Nat.lt_succ_iff.1 hk) with rfl | hk
      · exact Bool.eq_false_iff.2 hp
      · exact ih h hk

section Search

variable {e} (hpat : e.lastPattern ≠ []) (hnul : '\x00' ∉ e.lastPattern)

/-- The pattern is in a row, at a column. -/
def OccursIn (e : Vi) (row i : ℕ) : Prop := e.lastPattern <+: (e.line row).drop i

include hnul in
theorem matchAt_iff (row i : ℕ) : e.matchAt row i = true ↔ e.OccursIn row i := strncmpEq_iff hnul _

include hnul in
theorem not_occursIn {row i : ℕ} (h : e.matchAt row i = false) : ¬ e.OccursIn row i := by
  rw [← matchAt_iff hnul, h]
  exact Bool.false_ne_true

include hpat in
theorem OccursIn.bound {row i : ℕ} (h : e.OccursIn row i) : i + e.patternLen ≤ e.linelen row := by
  have hlen := h.length_le
  have hpos := List.length_pos_of_ne_nil hpat
  rw [List.length_drop] at hlen
  unfold patternLen linelen
  omega

include hnul in
/-- The scan to the right finds the first occurrence. -/
theorem scanRow_up_some {dir : ℤ} (hdir : 0 < dir) {row col i : ℕ} (h : e.scanRow dir row col = some i) :
    e.OccursIn row i ∧ col ≤ i ∧ ∀ k, col ≤ k → k < i → ¬ e.OccursIn row k := by
  rw [scanRow, if_pos hdir, Int.toNat_natCast] at h
  obtain ⟨hle, hi, hmin⟩ := scanUp_some h
  exact ⟨(matchAt_iff hnul _ _).1 hi, hle, fun k h1 h2 => not_occursIn hnul (hmin k h1 h2)⟩

include hpat hnul in
theorem scanRow_up_none {dir : ℤ} (hdir : 0 < dir) {row col : ℕ} (h : e.scanRow dir row col = none) :
    ∀ k, col ≤ k → ¬ e.OccursIn row k := by
  rw [scanRow, if_pos hdir, Int.toNat_natCast] at h
  intro k hk hocc
  have hbound := hocc.bound hpat
  exact not_occursIn hnul (scanUp_none h k hk (by omega)) hocc

include hnul hpat in
/-- The scan to the left finds the last occurrence. -/
theorem scanRow_down_some {dir : ℤ} (hdir : ¬ 0 < dir) {row col i : ℕ} (h : e.scanRow dir row col = some i) :
    e.OccursIn row i ∧ i ≤ col ∧ ∀ k, i < k → k ≤ col → ¬ e.OccursIn row k := by
  rw [scanRow, if_neg hdir] at h
  obtain ⟨hlt, hi, hmax⟩ := scanDown_some h
  refine ⟨(matchAt_iff hnul _ _).1 hi, by omega, fun k h1 h2 hocc => ?_⟩
  have hbound := hocc.bound hpat
  exact not_occursIn hnul (hmax k h1 (by omega)) hocc

include hpat hnul in
theorem scanRow_down_none {dir : ℤ} (hdir : ¬ 0 < dir) {row col : ℕ} (h : e.scanRow dir row col = none) :
    ∀ k, k ≤ col → ¬ e.OccursIn row k := by
  rw [scanRow, if_neg hdir] at h
  intro k hk hocc
  have hbound := hocc.bound hpat
  exact not_occursIn hnul (scanDown_none h k (by omega)) hocc

end Search

theorem searchLoop_of_clamp_eq {e : Vi} {dir row col row' col' : ℤ}
    (hclamp : e.clamp dir row col = e.clamp dir row' col') (m : ℕ) :
    e.searchLoop dir (m + 1) row col = e.searchLoop dir (m + 1) row' col' := by
  simp only [searchLoop, hclamp]

/-- A round that finds an occurrence. -/
theorem searchLoop_found {e : Vi} {dir row col row' col' : ℤ} {i : ℕ} (hclamp : e.clamp dir row col = (row', col'))
    (hscan : e.scanRow dir row' col' = some i) (m : ℕ) : e.searchLoop dir (m + 1) row col = some (row', i) := by
  simp only [searchLoop, hclamp, hscan]

/-- A round that finds none. -/
theorem searchLoop_missed {e : Vi} {dir row col row' col' row'' col'' : ℤ}
    (hclamp : e.clamp dir row col = (row', col')) (hscan : e.scanRow dir row' col' = none)
    (hadvance : e.advance dir row' = (row'', col'')) (hgo : ¬ (0 < dir ∧ e.cx + dir < col'')) (m : ℕ) :
    e.searchLoop dir (m + 1) row col = e.searchLoop dir m row'' col'' := by
  simp only [searchLoop, hclamp, hscan, hadvance]
  rw [if_neg fun h => hgo h.2]

/-- The rounds of the loop when nothing is clamped: `next` is the row that follows a row, and
`start` the column at which a row is entered. -/
structure Rounds (e : Vi) (dir : ℤ) (next start : ℕ → ℕ) : Prop where
  next_lt : ∀ r, r < e.lines.length → next r < e.lines.length
  found : ∀ m r i, r < e.lines.length → e.scanRow dir r (start r) = some i →
    e.searchLoop dir (m + 1) r (start r) = some (↑r, i)
  missed : ∀ m r, r < e.lines.length → e.scanRow dir r (start r) = none →
    e.searchLoop dir (m + 1) r (start r) = e.searchLoop dir m (next r) (start (next r))

/-- What `m` rounds do: the first row with an occurrence ends them. -/
theorem Rounds.searchLoop {e : Vi} {dir : ℤ} {next start : ℕ → ℕ} (R : e.Rounds dir next start) (m : ℕ) {r : ℕ}
    (hr : r < e.lines.length) :
    (∃ k i, k < m ∧ e.searchLoop dir m r (start r) = some (↑(next^[k] r), i) ∧
        e.scanRow dir ↑(next^[k] r) (start (next^[k] r)) = some i ∧
        ∀ j < k, e.scanRow dir ↑(next^[j] r) (start (next^[j] r)) = none) ∨
      e.searchLoop dir m r (start r) = none ∧
        ∀ j < m, e.scanRow dir ↑(next^[j] r) (start (next^[j] r)) = none := by
  induction m generalizing r with
  | zero => exact .inr ⟨rfl, fun j hj => absurd hj (Nat.not_lt_zero j)⟩
  | succ m ih =>
      cases hscan : e.scanRow dir r (start r) with
      | some i => exact .inl ⟨0, i, by omega, R.found m r i hr hscan, hscan, fun j hj => absurd hj (Nat.not_lt_zero j)⟩
      | none =>
          have hrows : ∀ j, (∀ j' < j, e.scanRow dir ↑(next^[j'] (next r)) (start (next^[j'] (next r))) = none) →
              ∀ j' < j + 1, e.scanRow dir ↑(next^[j'] r) (start (next^[j'] r)) = none := by
            intro j hj j' hj'
            cases j' with
            | zero => exact hscan
            | succ j' => exact hj j' (by omega)
          rw [R.missed m r hr hscan]
          rcases ih (R.next_lt r hr) with ⟨k, i, hk, hloop, hi, hbefore⟩ | ⟨hloop, hnone⟩
          · exact .inl ⟨k + 1, i, by omega, hloop, hi, hrows k hbefore⟩
          · exact .inr ⟨hloop, hrows m hnone⟩

/-- The row below, or the first one. -/
def rowBelow (n r : ℕ) : ℕ := if n ≤ r + 1 then 0 else r + 1

/-- The row above, or the last one. -/
def rowAbove (n r : ℕ) : ℕ := if r = 0 then n - 1 else r - 1

theorem iterate_next_lt {n : ℕ} {next : ℕ → ℕ} (hnext : ∀ r, r < n → next r < n) (k : ℕ) {r : ℕ} (hr : r < n) :
    next^[k] r < n := by
  induction k generalizing r with
  | zero => exact hr
  | succ k ih => exact ih (hnext r hr)

theorem iterate_rowBelow {n r : ℕ} (hr : r < n) (k : ℕ) (hk : k ≤ n) :
    (rowBelow n)^[k] r = if r + k < n then r + k else r + k - n := by
  induction k with
  | zero => simp [hr]
  | succ k ih =>
      rw [Function.iterate_succ_apply', ih (by omega), rowBelow]
      split_ifs <;> omega

theorem iterate_rowAbove {n r : ℕ} (hr : r < n) (k : ℕ) (hk : k ≤ n) :
    (rowAbove n)^[k] r = if k ≤ r then r - k else r + n - k := by
  induction k with
  | zero => simp
  | succ k ih =>
      rw [Function.iterate_succ_apply', ih (by omega), rowAbove]
      split_ifs <;> omega

theorem natCast_rowBelow {e : Vi} (r : ℕ) :
    ((rowBelow e.lines.length r : ℕ) : ℤ) = if e.numLines ≤ (r : ℤ) + 1 then 0 else (r : ℤ) + 1 := by
  unfold rowBelow numLines
  split_ifs <;> omega

theorem natCast_rowAbove {e : Vi} {r : ℕ} (hr : r < e.lines.length) :
    ((rowAbove e.lines.length r : ℕ) : ℤ) = if (r : ℤ) - 1 < 0 then e.numLines - 1 else (r : ℤ) - 1 := by
  unfold rowAbove numLines
  split_ifs <;> omega

section Directions

variable {e : Vi} (hok : e.Ok)

theorem clamp_up (row col : ℤ) (hrow : row < e.numLines) (hcol : 0 ≤ col) (hle : col ≤ e.linelen row) :
    e.clamp 1 row col = (row, col) := by
  simp [clamp, not_lt.2 hcol, not_lt.2 hle, not_le.2 hrow]

theorem clamp_up_end {r : ℕ} {col : ℤ} (hcol : 0 ≤ col) (hlt : e.linelen r < col) :
    e.clamp 1 r col = (↑(rowBelow e.lines.length r), 0) := by
  rw [natCast_rowBelow]
  simp only [clamp, not_lt.2 hcol, hlt, if_true, if_false]
  split_ifs <;> first | rfl | omega

theorem clamp_down (row col : ℤ) (hcol : 0 ≤ col) : e.clamp (-1) row col = (row, col) := by
  simp [clamp, not_lt.2 hcol]

theorem clamp_down_end {r : ℕ} (hr : r < e.lines.length) {col : ℤ} (hcol : col < 0) :
    e.clamp (-1) r col = (↑(rowAbove e.lines.length r), e.linelen ↑(rowAbove e.lines.length r)) := by
  rw [natCast_rowAbove hr]
  simp [clamp, hcol]

theorem advance_up (r : ℕ) : e.advance 1 r = (↑(rowBelow e.lines.length r), 0) := by
  rw [natCast_rowBelow]
  simp [advance]

theorem advance_down {r : ℕ} (hr : r < e.lines.length) :
    e.advance (-1) r = (↑(rowAbove e.lines.length r), e.linelen ↑(rowAbove e.lines.length r)) := by
  rw [natCast_rowAbove hr]
  simp [advance]

include hok in
theorem rounds_up : e.Rounds 1 (rowBelow e.lines.length) fun _ => 0 := by
  have hcx := hok.cx_nonneg
  have hclamp : ∀ r : ℕ, r < e.lines.length → e.clamp 1 r (0 : ℕ) = (↑r, ((0 : ℕ) : ℤ)) := fun r hr =>
    clamp_up _ _ (by simpa [numLines] using hr) (by simp) (by simp [linelen])
  refine ⟨fun r hr => ?_, fun m r i hr hscan => searchLoop_found (hclamp r hr) hscan m, fun m r hr hscan => ?_⟩
  · unfold rowBelow
    split_ifs <;> omega
  · exact searchLoop_missed (hclamp r hr) hscan (advance_up r) (by omega) m

theorem rounds_down : e.Rounds (-1) (rowAbove e.lines.length) fun r => (e.line r).length := by
  have hclamp : ∀ r : ℕ, e.clamp (-1) r (e.line r).length = (↑r, ((e.line r).length : ℤ)) := fun r =>
    clamp_down _ _ (by omega)
  refine ⟨fun r hr => ?_, fun m r i hr hscan => searchLoop_found (hclamp r) hscan m, fun m r hr hscan => ?_⟩
  · unfold rowAbove
    split_ifs <;> omega
  · exact searchLoop_missed (hclamp r) hscan (advance_down hr) (by omega) m

end Directions

section Nearest

variable {e : Vi} (hok : e.Ok) (hpat : e.lastPattern ≠ []) (hnul : '\x00' ∉ e.lastPattern)

include hpat in
theorem doSearch_of_searchLoop (dir : ℤ) : e.doSearch dir =
    match e.searchLoop dir (e.lines.length + 2) e.cy (e.cx + dir) with
    | some (row, i) => (1, { e with cy := row, cx := i })
    | none => (0, e) := by
  have hlen := List.length_pos_of_ne_nil hpat
  rw [doSearch, if_neg (by unfold patternLen; omega)]
  rfl

/-- The rounds go through all rows: they end at the first row with an occurrence, or there is
none in the document. -/
theorem Rounds.firstRow {dir : ℤ} {next start : ℕ → ℕ} (R : e.Rounds dir next start) {r₀ : ℕ}
    (hr₀ : r₀ < e.lines.length) {m : ℕ} (hm : e.lines.length ≤ m)
    (hcover : ∀ r < e.lines.length, ∃ k < e.lines.length, next^[k] r₀ = r)
    (hmiss : ∀ r : ℕ, e.scanRow dir r (start r) = none → ∀ i, ¬ e.OccursIn r i) :
    (∃ k i, e.searchLoop dir m r₀ (start r₀) = some (↑(next^[k] r₀), i) ∧
        e.scanRow dir ↑(next^[k] r₀) (start (next^[k] r₀)) = some i ∧
        ∀ q, e.Occurs q → ∃ j < e.lines.length, k ≤ j ∧ next^[j] r₀ = q.1) ∨
      (∀ q, ¬ e.Occurs q) ∧ e.searchLoop dir m r₀ (start r₀) = none := by
  rcases R.searchLoop m hr₀ with ⟨k, i, -, hloop, hi, hbefore⟩ | ⟨hloop, hnone⟩
  · refine .inl ⟨k, i, hloop, hi, fun q hq => ?_⟩
    obtain ⟨j, hj, hrow⟩ := hcover q.1 hq.1
    refine ⟨j, hj, le_of_not_gt fun hlt => ?_, hrow⟩
    exact hmiss _ (hbefore j hlt) q.2 (hrow ▸ hq.2)
  · refine .inr ⟨fun q hq => ?_, hloop⟩
    obtain ⟨j, hj, hrow⟩ := hcover q.1 hq.1
    exact hmiss _ (hnone j (by omega)) q.2 (hrow ▸ hq.2)

theorem rowBelow_cover {n y : ℕ} (hy : y < n) (r : ℕ) (hr : r < n) :
    ∃ k < n, (rowBelow n)^[k] (rowBelow n y) = r := by
  refine ⟨if y < r then r - y - 1 else r + n - y - 1, by split_ifs <;> omega, ?_⟩
  rw [← Function.iterate_succ_apply, iterate_rowBelow hy _ (by split_ifs <;> omega)]
  split_ifs <;> omega

theorem rowAbove_cover {n y : ℕ} (hy : y < n) (r : ℕ) (hr : r < n) :
    ∃ k < n, (rowAbove n)^[k] (rowAbove n y) = r := by
  refine ⟨if r < y then y - r - 1 else y + n - r - 1, by split_ifs <;> omega, ?_⟩
  rw [← Function.iterate_succ_apply, iterate_rowAbove hy _ (by split_ifs <;> omega)]
  split_ifs <;> omega

include hok hpat hnul in
/-- The search to the right, behind the row of the cursor. -/
theorem searchLoop_up {y x m : ℕ} (hy : y < e.lines.length) (hm : e.lines.length ≤ m)
    (hrow : ∀ i, x < i → ¬ e.OccursIn y i) :
    (∃ p, FirstAfter e.Occurs (y, x) p ∧
        e.searchLoop 1 m ↑(rowBelow e.lines.length y) ((0 : ℕ) : ℤ) = some (↑p.1, p.2)) ∨
      (∀ p, ¬ e.Occurs p) ∧ e.searchLoop 1 m ↑(rowBelow e.lines.length y) ((0 : ℕ) : ℤ) = none := by
  have hR := rounds_up hok
  have hmiss : ∀ r : ℕ, e.scanRow 1 r ((0 : ℕ) : ℤ) = none → ∀ i, ¬ e.OccursIn r i :=
    fun r h i => scanRow_up_none hpat hnul (by decide) h i (Nat.zero_le i)
  rcases hR.firstRow (hR.next_lt y hy) hm (rowBelow_cover hy) hmiss with ⟨k, i, hloop, hi, hlater⟩ | hnone
  · obtain ⟨hocc, -, hfirst⟩ := scanRow_up_some hnul (by decide) hi
    refine .inl ⟨(_, i), ⟨⟨?_, hocc⟩, fun q hq => ?_⟩, hloop⟩
    · exact iterate_next_lt hR.next_lt k (hR.next_lt y hy)
    · obtain ⟨j, hj, hkj, hqrow⟩ := hlater q hq
      have hsame : (rowBelow e.lines.length)^[k] (rowBelow e.lines.length y) = q.1 → i ≤ q.2 := fun h =>
        le_of_not_gt fun hlt => hfirst q.2 (Nat.zero_le _) hlt (h ▸ hq.2)
      have hold : q.1 = y → q.2 ≤ x := fun h => le_of_not_gt fun hlt => hrow q.2 hlt (h ▸ hq.2)
      rw [← Function.iterate_succ_apply, iterate_rowBelow hy _ (by omega)] at hsame hqrow ⊢
      simp only [Before]
      split_ifs at * <;> omega
  · exact .inr hnone

include hpat hnul in
/-- The search to the left, before the row of the cursor. -/
theorem searchLoop_down {y x m : ℕ} (hy : y < e.lines.length) (hm : e.lines.length ≤ m)
    (hrow : ∀ i, i < x → ¬ e.OccursIn y i) :
    (∃ p, LastBefore e.Occurs (y, x) p ∧ e.searchLoop (-1) m ↑(rowAbove e.lines.length y)
        ((e.line ↑(rowAbove e.lines.length y)).length : ℤ) = some (↑p.1, p.2)) ∨
      (∀ p, ¬ e.Occurs p) ∧ e.searchLoop (-1) m ↑(rowAbove e.lines.length y)
        ((e.line ↑(rowAbove e.lines.length y)).length : ℤ) = none := by
  have hR := rounds_down (e := e)
  have hbound : ∀ r i : ℕ, e.OccursIn r i → i ≤ (e.line r).length := fun r i h => by
    have := h.bound hpat
    unfold patternLen linelen at this
    omega
  have hmiss : ∀ r : ℕ, e.scanRow (-1) r ((e.line r).length : ℤ) = none → ∀ i, ¬ e.OccursIn r i :=
    fun r h i hocc => scanRow_down_none hpat hnul (by decide) h i (hbound r i hocc) hocc
  rcases hR.firstRow (hR.next_lt y hy) hm (rowAbove_cover hy) hmiss with ⟨k, i, hloop, hi, hlater⟩ | hnone
  · obtain ⟨hocc, -, hlast⟩ := scanRow_down_some hpat hnul (by decide) hi
    refine .inl ⟨(_, i), ⟨⟨?_, hocc⟩, fun q hq => ?_⟩, hloop⟩
    · exact iterate_next_lt hR.next_lt k (hR.next_lt y hy)
    · obtain ⟨j, hj, hkj, hqrow⟩ := hlater q hq
      have hsame : (rowAbove e.lines.length)^[k] (rowAbove e.lines.length y) = q.1 → q.2 ≤ i := fun h =>
        le_of_not_gt fun hlt => hlast q.2 hlt (h ▸ hbound _ _ hq.2) (h ▸ hq.2)
      have hold : q.1 = y → x ≤ q.2 := fun h => le_of_not_gt fun hlt => hrow q.2 hlt (h ▸ hq.2)
      rw [← Function.iterate_succ_apply, iterate_rowAbove hy _ (by omega)] at hsame hqrow ⊢
      simp only [Before]
      split_ifs at * <;> omega
  · exact .inr hnone

include hok hpat hnul in
/-- The loop from the cursor to the right. -/
theorem searchLoop_up_from {y x : ℕ} (hcy : e.cy = y) (hcx : e.cx = x) :
    (∃ p, FirstAfter e.Occurs (y, x) p ∧
        e.searchLoop 1 (e.lines.length + 2) e.cy (e.cx + 1) = some (↑p.1, p.2)) ∨
      (∀ p, ¬ e.Occurs p) ∧ e.searchLoop 1 (e.lines.length + 2) e.cy (e.cx + 1) = none := by
  have hcy_lt := hok.cy_lt
  have hlen : e.numLines = e.lines.length := rfl
  have hy : y < e.lines.length := by omega
  rw [hcy, hcx]
  rcases le_or_gt ((x : ℤ) + 1) (e.linelen y) with hle | hend
  · have hclamp := clamp_up (e := e) y (x + 1) (by omega) (by omega) hle
    cases hscan : e.scanRow 1 y ((x + 1 : ℕ) : ℤ) with
    | some i =>
        obtain ⟨hocc, hi, hfirst⟩ := scanRow_up_some hnul (by decide) hscan
        refine .inl ⟨(y, i), ⟨⟨hy, hocc⟩, fun q hq => ?_⟩, searchLoop_found hclamp hscan _⟩
        have hsame : q.1 = y → x < q.2 → i ≤ q.2 := fun h hx =>
          le_of_not_gt fun hlt => hfirst q.2 hx hlt (h ▸ hq.2)
        simp only [Before, lt_self_iff_false, true_and, false_or]
        omega
    | none =>
        have hrow := scanRow_up_none hpat hnul (by decide) hscan
        rw [searchLoop_missed hclamp hscan (advance_up y) (by omega)]
        exact searchLoop_up hok hpat hnul hy (by omega) fun i hi => hrow i hi
  · -- behind the last column: the round is that of the row below
    have hnext := (rounds_up hok).next_lt y hy
    have hclamp : e.clamp 1 y ((x : ℤ) + 1) = e.clamp 1 ↑(rowBelow e.lines.length y) ((0 : ℕ) : ℤ) := by
      rw [clamp_up_end (by omega) hend]
      exact (clamp_up _ _ (by omega) (by simp) (by simp [linelen])).symm
    rw [searchLoop_of_clamp_eq hclamp]
    refine searchLoop_up hok hpat hnul hy (by omega) fun i hi hocc => ?_
    have := hocc.bound hpat
    have hpos := List.length_pos_of_ne_nil hpat
    unfold patternLen at this
    omega

include hok hpat hnul in
/-- The loop from the cursor to the left. -/
theorem searchLoop_down_from {y x : ℕ} (hcy : e.cy = y) (hcx : e.cx = x) :
    (∃ p, LastBefore e.Occurs (y, x) p ∧
        e.searchLoop (-1) (e.lines.length + 2) e.cy (e.cx + -1) = some (↑p.1, p.2)) ∨
      (∀ p, ¬ e.Occurs p) ∧ e.searchLoop (-1) (e.lines.length + 2) e.cy (e.cx + -1) = none := by
  have hcy_lt := hok.cy_lt
  have hlen : e.numLines = e.lines.length := rfl
  have hy : y < e.lines.length := by omega
  rw [hcy, hcx]
  cases x with
  | zero =>
      -- before the first column: the round is that of the row above
      have hclamp : e.clamp (-1) y (((0 : ℕ) : ℤ) + -1) = e.clamp (-1) ↑(rowAbove e.lines.length y)
          ((e.line ↑(rowAbove e.lines.length y)).length : ℤ) := by
        rw [clamp_down_end hy (by omega)]
        exact (clamp_down _ _ (Int.natCast_nonneg _)).symm
      rw [searchLoop_of_clamp_eq hclamp]
      exact searchLoop_down hpat hnul hy (by omega) fun i hi => absurd hi (Nat.not_lt_zero i)
  | succ x =>
      have hcol : ((x + 1 : ℕ) : ℤ) + -1 = x := by omega
      have hclamp := clamp_down (e := e) y x (by omega)
      rw [hcol]
      cases hscan : e.scanRow (-1) y x with
      | some i =>
          obtain ⟨hocc, hi, hlast⟩ := scanRow_down_some hpat hnul (by decide) hscan
          refine .inl ⟨(y, i), ⟨⟨hy, hocc⟩, fun q hq => ?_⟩, searchLoop_found hclamp hscan _⟩
          have hsame : q.1 = y → q.2 ≤ x → q.2 ≤ i := fun h hx =>
            le_of_not_gt fun hlt => hlast q.2 hlt hx (h ▸ hq.2)
          simp only [Before, lt_self_iff_false, true_and, false_or]
          omega
      | none =>
          have hrow := scanRow_down_none hpat hnul (by decide) hscan
          rw [searchLoop_missed hclamp hscan (advance_down hy) (by omega)]
          exact searchLoop_down hpat hnul hy (by omega) fun i hi => hrow i (by omega)

end Nearest

/-- The occurrence that a search in the given direction is to find. -/
def Nearest (e : Vi) (dir : ℤ) (p : ℕ × ℕ) : Prop :=
  if 0 < dir then FirstAfter e.Occurs (e.cy.toNat, e.cx.toNat) p
  else LastBefore e.Occurs (e.cy.toNat, e.cx.toNat) p

theorem searchLoop_nearest {e : Vi} (hok : e.Ok) (hpat : e.lastPattern ≠ []) (hnul : '\x00' ∉ e.lastPattern)
    {dir : ℤ} (hdir : dir = 1 ∨ dir = -1) :
    (∃ p, e.Nearest dir p ∧ e.searchLoop dir (e.lines.length + 2) e.cy (e.cx + dir) = some (↑p.1, p.2)) ∨
      (∀ p, ¬ e.Occurs p) ∧ e.searchLoop dir (e.lines.length + 2) e.cy (e.cx + dir) = none := by
  have hcy : e.cy = e.cy.toNat := (Int.toNat_of_nonneg hok.cy_nonneg).symm
  have hcx : e.cx = e.cx.toNat := (Int.toNat_of_nonneg hok.cx_nonneg).symm
  rcases hdir with rfl | rfl
  · exact searchLoop_up_from hok hpat hnul hcy hcx
  · exact searchLoop_down_from hok hpat hnul hcy hcx

/-- **The search finds the nearest occurrence:** it returns 1 exactly if the pattern occurs in
some row; the cursor is then at the first occurrence behind the old position or, to the left, at
the last one before it, around the end of the document and up to the old position; otherwise
nothing changes. -/
theorem viDoSearch_nearest (e : Vi) (hok : e.Ok) (hpat : e.lastPattern ≠ []) (hnul : '\x00' ∉ e.lastPattern)
    (dir : ℤ) (hdir : dir = 1 ∨ dir = -1) :
    ((e.doSearch dir).1 = 1 ↔ ∃ p, e.Occurs p) ∧
      ((e.doSearch dir).1 = 1 → ∃ p, e.Nearest dir p ∧ (e.doSearch dir).2 = { e with cy := p.1, cx := p.2 }) ∧
      ((e.doSearch dir).1 ≠ 1 → e.doSearch dir = (0, e)) := by
  rw [doSearch_of_searchLoop hpat]
  rcases searchLoop_nearest hok hpat hnul hdir with ⟨p, hp, hloop⟩ | ⟨hnone, hloop⟩
  · have hocc : e.Occurs p := by
      unfold Nearest at hp
      split_ifs at hp
      · exact hp.1
      · exact hp.1
    rw [hloop]
    exact ⟨iff_of_true rfl ⟨p, hocc⟩, fun _ => ⟨p, hp, rfl⟩, fun h => absurd rfl h⟩
  · rw [hloop]
    exact ⟨iff_of_false (by simp) fun ⟨p, hp⟩ => hnone p hp, fun h => absurd h (by simp), fun _ => rfl⟩

/-- The hypotheses of `viDoSearch_nearest` are satisfiable: from the second row, the search to
the right goes around the end of the document. -/
theorem viDoSearch_around : ∃ e : Vi, e.cy = 1 ∧ ((e.doSearch 1).1 = 1 ↔ ∃ p, e.Occurs p) ∧
    (e.doSearch 1).2.cy = 0 := by
  let e : Vi := ⟨["ab".toList, "cb".toList], 1, 1, ['b']⟩
  have h := viDoSearch_nearest e ⟨by decide, by decide, by decide, by decide⟩ (by decide) (by decide) 1 (.inl rfl)
  exact ⟨e, rfl, h.1, by decide⟩

end Vi
end LighthOS
