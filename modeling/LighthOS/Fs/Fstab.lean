/-
# The file system table

`fstab_mount_string` of `src/fs/fstab.c` reads a table of file systems line by line: it skips empty lines
and comments, copies the first four words of each other line into fields of fixed size with `next_tok`, and
calls `apply_entry` for them.

`next_tok` stops at a blank, at the end of the line, or when its field is full.  In terms of the words of a
line it takes the front of the first word and leaves the rest of it as a word (`takeTok`), so that a word that
is too long goes on in the next field.  What is called for a line is thus a function of its words
(`readLine_eq`), and it is the entry that the line describes (`lineEntry`) unless some word is too long
(`WordsFit`).
-/

import LighthOS.Kernel.Path

namespace LighthOS

/-! ### The parser -/

/-- A space or a tab. -/
def isWs (c : Char) : Bool := c == ' ' || c == '\t'

/-- A character that `next_tok` copies. -/
def isTok (c : Char) : Bool := !isWs c && c != '\n'

/-- `skip_ws`. -/
def skipWs (p : CString) : CString := p.dropWhile isWs

/-- The loop of `next_tok` with room for `n` more characters: the characters copied, and what is behind them. -/
def tokLoop : ℕ → CString → CString × CString
  | n + 1, c :: p => if isTok c then (c :: (tokLoop n p).1, (tokLoop n p).2) else ([], c :: p)
  | _, p => ([], p)

/-- `next_tok` for a field of `cap` bytes. -/
def nextTok (cap : ℕ) (p : CString) : CString × CString := tokLoop (cap - 1) (skipWs p)

/-- The arguments of `apply_entry`. -/
structure FstabEntry where
  source : CString
  mountpoint : CString
  type : CString
  flags : CString
  deriving DecidableEq

/-- The sizes of the four fields, without the terminators. -/
def sourceRoom : ℕ := 31
def mountpointRoom : ℕ := 255
def typeRoom : ℕ := 15
def flagsRoom : ℕ := 7

/-- The four calls of `next_tok` for a line: the arguments of `apply_entry`, none where it is not called. -/
def readFields (q : CString) : Option FstabEntry :=
  let source := nextTok (sourceRoom + 1) q
  if source.1 = [] then none
  else
    let mountpoint := nextTok (mountpointRoom + 1) source.2
    if mountpoint.1 = [] then none
    else
      let type := nextTok (typeRoom + 1) mountpoint.2
      if type.1 = [] then none
      else
        let flags := nextTok (flagsRoom + 1) type.2
        some ⟨source.1, mountpoint.1, type.1, if flags.1 = [] then ['r', 'w'] else flags.1⟩

/-- The line of `len` bytes that starts at `p`. -/
def readLine (p : CString) (len : ℕ) : Option FstabEntry :=
  let blanks := ((p.take len).takeWhile isWs).length
  let q := p.drop blanks
  if len ≤ blanks ∨ q.head? = some '#' ∨ q.head? = some '\n' then none else readFields q

section Mount

variable {σ : Type} (applyEntry : σ → FstabEntry → Bool × σ)

/-- `if (apply_entry(...)) mounted++`. -/
def applyLine (m : ℕ × σ) : Option FstabEntry → ℕ × σ
  | none => m
  | some e => (if (applyEntry m.2 e).1 then m.1 + 1 else m.1, (applyEntry m.2 e).2)

/-- The loop of `fstab_mount_string` over the lines. -/
def mountLoop : ℕ → CString → ℕ × σ → ℕ × σ
  | 0, _, m => m
  | fuel + 1, p, m =>
      if p = [] then m
      else
        let line := p.takeWhile (· != '\n')
        mountLoop fuel ((p.drop line.length).drop 1) (applyLine applyEntry m (readLine p line.length))

/-- `fstab_mount_string`, where `apply_entry` works on a state: the number of file systems mounted. -/
def fstabMountString (content : CString) (s : σ) : ℕ × σ := mountLoop applyEntry content.length content (0, s)

end Mount

/-! ### The words of a line -/

/-- The words of a line. -/
def wordsOf (line : CString) : List CString := (line.splitOnP isWs).filter (· ≠ [])

/-- What is described by a line with the given words, none where nothing is to be mounted: a comment, less than
three words, or a word that does not fit in its field. -/
def lineEntry : List CString → Option FstabEntry
  | source :: mountpoint :: type :: rest =>
      if source.head? = some '#' then none
      else if sourceRoom < source.length ∨ mountpointRoom < mountpoint.length ∨ typeRoom < type.length ∨
          ∃ flags ∈ rest.head?, flagsRoom < flags.length then none
      else some ⟨source, mountpoint, type, rest.head?.getD ['r', 'w']⟩
  | _ => none

/-- The entries of a text, line by line. -/
def fstabEntries (content : CString) : List FstabEntry :=
  (content.splitOn '\n').filterMap fun line => lineEntry (wordsOf line)

theorem wordsOf_blank {c : Char} (hc : isWs c = true) (l : CString) : wordsOf (c :: l) = wordsOf l := by
  rw [wordsOf, List.splitOnP_cons_eq_if_modifyHead, if_pos hc, List.filter_cons]
  rfl

theorem wordsOf_skipWs (l : CString) : wordsOf (skipWs l) = wordsOf l := by
  induction l with
  | nil => rfl
  | cons c l ih =>
      unfold skipWs at ih ⊢
      by_cases hc : isWs c = true
      · rw [List.dropWhile_cons_of_pos hc, ih, wordsOf_blank hc]
      · rw [List.dropWhile_cons_of_neg hc]

/-- A word at the front of a line. -/
theorem wordsOf_append {w : CString} (hw : w ≠ []) (hblank : ∀ c ∈ w, isWs c = false) {l : CString}
    (hl : ∀ c ∈ l.head?, isWs c = true) : wordsOf (w ++ l) = w :: wordsOf l := by
  have hone : w.splitOnP isWs = [w] := List.splitOnP_eq_singleton hblank
  cases l with
  | nil => simp [wordsOf, hone, hw]
  | cons c l =>
      have hc : isWs c = true := hl c rfl
      rw [wordsOf_blank hc, wordsOf, List.splitOnP_append_cons _ _ hc, hone, List.singleton_append, List.filter_cons]
      simp [hw, wordsOf]

/-- Every line is blank, or a word and what is behind it. -/
theorem skipWs_cases (l : CString) : skipWs l = [] ∧ wordsOf l = [] ∨
    ∃ w rest, w ≠ [] ∧ (∀ c ∈ w, isWs c = false) ∧ (∀ c ∈ rest.head?, isWs c = true) ∧
      skipWs l = w ++ rest ∧ wordsOf l = w :: wordsOf rest := by
  cases hskip : skipWs l with
  | nil =>
      refine Or.inl ⟨rfl, ?_⟩
      rw [← wordsOf_skipWs, hskip]
      rfl
  | cons c p =>
      right
      have hfirst : isWs c = false := by
        have hhead := List.head?_dropWhile_not isWs l
        unfold skipWs at hskip
        rw [hskip] at hhead
        simpa using hhead
      have hw : (c :: p).takeWhile (!isWs ·) ≠ [] := by
        rw [List.takeWhile_cons, hfirst]
        simp
      have hblank : ∀ d ∈ (c :: p).takeWhile (!isWs ·), isWs d = false := by
        intro d hd
        simpa using List.mem_takeWhile_imp hd
      have hrest : ∀ d ∈ ((c :: p).dropWhile (!isWs ·)).head?, isWs d = true := by
        intro d hd
        have hhead := List.head?_dropWhile_not (!isWs ·) (c :: p)
        rw [Option.mem_def.1 hd] at hhead
        simpa using hhead
      refine ⟨_, _, hw, hblank, hrest, List.takeWhile_append_dropWhile.symm, ?_⟩
      rw [← wordsOf_append hw hblank hrest, List.takeWhile_append_dropWhile, ← hskip, wordsOf_skipWs]

/-! ### `next_tok` on words -/

/-- `next_tok` with room for `n` characters, on the words of a line: the front of the first word, and the
words that are left. -/
def takeTok (n : ℕ) : List CString → CString × List CString
  | [] => ([], [])
  | w :: ws => (w.take n, if w.length ≤ n then ws else w.drop n :: ws)

theorem tokLoop_append {w p : CString} (hw : ∀ c ∈ w, isTok c = true) (hp : ∀ c ∈ p.head?, isTok c = false)
    (n : ℕ) : tokLoop n (w ++ p) = (w.take n, w.drop n ++ p) := by
  induction n generalizing w with
  | zero => simp [tokLoop]
  | succ n ih =>
      cases w with
      | nil =>
          cases p with
          | nil => rfl
          | cons c p => simp [tokLoop, hp c rfl]
      | cons c w =>
          rw [List.cons_append, tokLoop, if_pos (hw c List.mem_cons_self),
            ih fun d hd => hw d (List.mem_cons_of_mem c hd)]
          rfl

/-- What is behind a line: nothing, or the character that ends it. -/
def EndsLine (tail : CString) : Prop := ∀ c ∈ tail.head?, c = '\n'

theorem skipWs_append {tail : CString} (htail : EndsLine tail) (l : CString) :
    skipWs (l ++ tail) = skipWs l ++ tail := by
  have hskip : tail.dropWhile isWs = tail := by
    cases tail with
    | nil => rfl
    | cons c tail =>
        rw [htail c rfl]
        rfl
  unfold skipWs
  rw [List.dropWhile_append, hskip]
  split_ifs with hnil
  · rw [List.isEmpty_iff.1 hnil, List.nil_append]
  · rfl

/-- **`next_tok` stays inside of its line**, and takes the front of the first word. -/
theorem nextTok_line {l tail : CString} (hl : '\n' ∉ l) (htail : EndsLine tail) (n : ℕ) :
    ∃ rest, nextTok (n + 1) (l ++ tail) = ((takeTok n (wordsOf l)).1, rest ++ tail) ∧
      wordsOf rest = (takeTok n (wordsOf l)).2 ∧ '\n' ∉ rest := by
  have hend : ∀ c ∈ tail.head?, isTok c = false := by
    intro c hc
    rw [htail c hc]
    rfl
  rw [nextTok, Nat.add_sub_cancel, skipWs_append htail]
  rcases skipWs_cases l with ⟨hskip, hwords⟩ | ⟨w, rest, hw, hblank, hrest, hskip, hwords⟩
  · refine ⟨[], ?_, ?_, List.not_mem_nil⟩
    · rw [hskip, hwords]
      simpa [takeTok] using tokLoop_append (w := []) (by simp) hend n
    · rw [hwords]
      rfl
  · have hmem : ∀ c ∈ w ++ rest, c ∈ l := by
      intro c hc
      rw [← hskip] at hc
      exact List.dropWhile_subset _ hc
    have htok : ∀ c ∈ w, isTok c = true := by
      intro c hc
      have hne : c ≠ '\n' := fun heq => hl (heq ▸ hmem c (List.mem_append_left rest hc))
      simp [isTok, hblank c hc, hne]
    have hstop : ∀ c ∈ (rest ++ tail).head?, isTok c = false := by
      intro c hc
      cases rest with
      | nil => exact hend c hc
      | cons d rest =>
          cases hc
          simp [isTok, hrest c rfl]
    refine ⟨w.drop n ++ rest, ?_, ?_, ?_⟩
    · rw [hskip, hwords, List.append_assoc, tokLoop_append htok hstop, takeTok, List.append_assoc]
    · rw [hwords, takeTok]
      dsimp only
      split_ifs with hlen
      · rw [List.drop_eq_nil_of_le hlen, List.nil_append]
      · have hdrop : w.drop n ≠ [] := by simpa using hlen
        exact wordsOf_append hdrop (fun c hc => hblank c (List.mem_of_mem_drop hc)) hrest
    · intro hmem'
      rcases List.mem_append.1 hmem' with h | h
      · exact hl (hmem _ (List.mem_append_left rest (List.mem_of_mem_drop h)))
      · exact hl (hmem _ (List.mem_append_right w h))

/-- The four calls of `next_tok` on the words of a line. -/
def wordFields (ws : List CString) : Option FstabEntry :=
  let source := takeTok sourceRoom ws
  if source.1 = [] then none
  else
    let mountpoint := takeTok mountpointRoom source.2
    if mountpoint.1 = [] then none
    else
      let type := takeTok typeRoom mountpoint.2
      if type.1 = [] then none
      else
        let flags := takeTok flagsRoom type.2
        some ⟨source.1, mountpoint.1, type.1, if flags.1 = [] then ['r', 'w'] else flags.1⟩

/-- What is called for a line with the given words. -/
def lineCall (ws : List CString) : Option FstabEntry :=
  if ws.head?.bind List.head? = some '#' then none else wordFields ws

theorem readFields_eq {l tail : CString} (hl : '\n' ∉ l) (htail : EndsLine tail) :
    readFields (l ++ tail) = wordFields (wordsOf l) := by
  obtain ⟨q₁, h₁, hw₁, hl₁⟩ := nextTok_line hl htail sourceRoom
  obtain ⟨q₂, h₂, hw₂, hl₂⟩ := nextTok_line hl₁ htail mountpointRoom
  obtain ⟨q₃, h₃, hw₃, hl₃⟩ := nextTok_line hl₂ htail typeRoom
  obtain ⟨q₄, h₄, -, -⟩ := nextTok_line hl₃ htail flagsRoom
  simp only [readFields, wordFields, h₁, h₂, h₃, h₄, hw₁, hw₂, hw₃]

/-- **What is called for a line** is a function of its words. -/
theorem readLine_eq {l tail : CString} (hl : '\n' ∉ l) (htail : EndsLine tail) :
    readLine (l ++ tail) l.length = lineCall (wordsOf l) := by
  have hdrop : (l ++ tail).drop (l.takeWhile isWs).length = skipWs l ++ tail := by
    rw [List.drop_append_of_le_length (List.takeWhile_prefix isWs).length_le]
    have hleft := @List.drop_left _ (l.takeWhile isWs) (l.dropWhile isWs)
    rw [List.takeWhile_append_dropWhile] at hleft
    rw [hleft, skipWs]
  unfold readLine
  rw [List.take_left]
  simp only [hdrop]
  rcases skipWs_cases l with ⟨hskip, hwords⟩ | ⟨w, rest, hw, hblank, -, hskip, hwords⟩
  · have hall : l.length ≤ (l.takeWhile isWs).length := by
      have hlen := congrArg List.length (List.takeWhile_append_dropWhile (p := isWs) (l := l))
      have hnil : l.dropWhile isWs = [] := hskip
      rw [hnil, List.append_nil] at hlen
      exact hlen.ge
    rw [if_pos (Or.inl hall), hwords]
    rfl
  · have hsome : ¬l.length ≤ (l.takeWhile isWs).length := by
      have hlen := congrArg List.length (List.takeWhile_append_dropWhile (p := isWs) (l := l))
      have hrest : l.dropWhile isWs = w ++ rest := hskip
      have hpos := List.length_pos_iff.2 hw
      rw [hrest, List.length_append, List.length_append] at hlen
      omega
    have hhead : (skipWs l ++ tail).head? = w.head? := by
      rw [hskip, List.append_assoc, List.head?_append_of_ne_nil _ hw]
    have hnl : w.head? ≠ some '\n' := by
      intro hc
      refine hl (List.dropWhile_subset isWs ?_)
      change '\n' ∈ skipWs l
      rw [hskip]
      exact List.mem_append_left rest (List.mem_of_head? hc)
    have hfields := readFields_eq (l := skipWs l) (fun h => hl (List.dropWhile_subset isWs h)) htail
    rw [wordsOf_skipWs] at hfields
    rw [hhead, hfields]
    simp [hsome, hnl, hwords, lineCall]

/-! ### Lines -/

/-- The calls for a text, line by line. -/
def fstabCalls (content : CString) : List FstabEntry :=
  (content.splitOn '\n').filterMap fun line => lineCall (wordsOf line)

/-- The loop over the lines makes the calls of the lines, in order. -/
theorem mountLoop_eq {σ : Type} (applyEntry : σ → FstabEntry → Bool × σ) {fuel : ℕ} {p : CString}
    (hfuel : p.length ≤ fuel) (m : ℕ × σ) : mountLoop applyEntry fuel p m =
      (p.splitOn '\n').foldl (fun m line => applyLine applyEntry m (lineCall (wordsOf line))) m := by
  induction fuel generalizing p m with
  | zero =>
      rw [List.length_eq_zero_iff.1 (Nat.le_zero.1 hfuel)]
      rfl
  | succ fuel ih =>
      rw [mountLoop]
      split_ifs with hp
      · rw [hp]
        rfl
      · have hline : '\n' ∉ p.takeWhile (· != '\n') := by
          intro hmem
          simpa using List.mem_takeWhile_imp hmem
        have hsplit : p.takeWhile (· != '\n') ++ p.dropWhile (· != '\n') = p := List.takeWhile_append_dropWhile
        have hone : (p.takeWhile (· != '\n')).splitOnP (· == '\n') = [p.takeWhile (· != '\n')] :=
          List.splitOnP_eq_singleton fun c hc => by simpa using List.mem_takeWhile_imp hc
        dsimp only
        generalize p.takeWhile (· != '\n') = line at hline hsplit hone ⊢
        cases htail : p.dropWhile (· != '\n') with
        | nil =>
            rw [htail, List.append_nil] at hsplit
            subst hsplit
            have hread := readLine_eq hline (show EndsLine [] by simp [EndsLine])
            rw [List.append_nil] at hread
            rw [hread, List.splitOn_eq_splitOnP, hone, List.drop_length, List.drop_nil, ih (by simp)]
            simp [wordsOf, List.splitOn, lineCall, wordFields, takeTok, applyLine]
        | cons c rest =>
            have hc : c = '\n' := by
              have hhead := List.head?_dropWhile_not (· != '\n') p
              rw [htail] at hhead
              simpa using hhead
            subst hc
            rw [htail] at hsplit
            subst hsplit
            have hread := readLine_eq hline (show EndsLine ('\n' :: rest) by simp [EndsLine])
            rw [List.length_append, List.length_cons] at hfuel
            rw [hread, List.splitOn_eq_splitOnP, List.splitOnP_append_cons _ _ (by simp), hone, List.drop_left,
              List.drop_one, List.tail_cons, ih (by omega), ← List.splitOn_eq_splitOnP]
            rfl

/-- **The calls do not depend on what `apply_entry` does**, and go through the whole text. -/
theorem fstabMountString_eq {σ : Type} (applyEntry : σ → FstabEntry → Bool × σ) (content : CString) (s : σ) :
    fstabMountString applyEntry content s
      = (fstabCalls content).foldl (fun m e => applyLine applyEntry m (some e)) (0, s) := by
  rw [fstabMountString, mountLoop_eq _ le_rfl, fstabCalls, List.foldl_filterMap]
  congr 1
  funext m line
  cases lineCall (wordsOf line) <;> rfl

/-- An `apply_entry` that keeps its arguments. -/
theorem foldl_record (l calls : List FstabEntry) (k : ℕ) :
    (l.foldl (fun m e => applyLine (fun calls e => (true, calls ++ [e])) m (some e)) (k, calls)).2 = calls ++ l := by
  induction l generalizing calls k with
  | nil => simp
  | cons e l ih => rw [List.foldl_cons, applyLine, ih, List.append_assoc, List.singleton_append]

/-! ### Words that fit -/

/-- The words of a line fit in their fields.  A single word that goes on in the second field is no harm yet. -/
def WordsFit : List CString → Prop
  | [] => True
  | [w] => w.head? = some '#' ∨ w.length ≤ sourceRoom + mountpointRoom
  | [w, w₂] => w.head? = some '#' ∨ w.length ≤ sourceRoom ∧ w₂.length ≤ mountpointRoom
  | w :: w₂ :: w₃ :: rest => w.head? = some '#' ∨ w.length ≤ sourceRoom ∧ w₂.length ≤ mountpointRoom ∧
      w₃.length ≤ typeRoom ∧ ∀ w₄ ∈ rest.head?, w₄.length ≤ flagsRoom

theorem takeTok_fits {n : ℕ} {w : CString} (h : w.length ≤ n) (ws : List CString) :
    takeTok n (w :: ws) = (w, ws) := by
  rw [takeTok, if_pos h, List.take_of_length_le h]

theorem takeTok_long {n : ℕ} {w : CString} (h : n < w.length) (ws : List CString) :
    takeTok n (w :: ws) = (w.take n, w.drop n :: ws) := by
  rw [takeTok, if_neg (Nat.not_le.2 h)]

variable {ws : List CString}

theorem takeTok_fst_eq_nil {n : ℕ} (hn : 0 < n) (hws : ∀ w ∈ ws, w ≠ []) : (takeTok n ws).1 = [] ↔ ws = [] := by
  cases ws with
  | nil => simp [takeTok]
  | cons w ws => simp [takeTok, hws w List.mem_cons_self, Nat.ne_of_gt hn]

theorem takeTok_snd_ne_nil {n : ℕ} (hws : ∀ w ∈ ws, w ≠ []) :
    ∀ w ∈ (takeTok n ws).2, w ≠ [] := by
  cases ws with
  | nil => simp [takeTok]
  | cons w ws =>
      intro w' hw'
      rcases Nat.lt_or_ge n w.length with hlong | hfits
      · rw [takeTok_long hlong] at hw'
        rcases List.mem_cons.1 hw' with rfl | hw'
        · simpa using hlong
        · exact hws w' (List.mem_cons_of_mem w hw')
      · rw [takeTok_fits hfits] at hw'
        exact hws w' (List.mem_cons_of_mem w hw')

/-- `apply_entry` is called where the three first calls of `next_tok` find a word, or a part of one. -/
theorem wordFields_isSome_iff (hws : ∀ w ∈ ws, w ≠ []) :
    (wordFields ws).isSome = true ↔ ws ≠ [] ∧ (takeTok sourceRoom ws).2 ≠ [] ∧
      (takeTok mountpointRoom (takeTok sourceRoom ws).2).2 ≠ [] := by
  have hws₁ := takeTok_snd_ne_nil (n := sourceRoom) hws
  have hws₂ := takeTok_snd_ne_nil (n := mountpointRoom) hws₁
  simp only [wordFields, takeTok_fst_eq_nil (show 0 < sourceRoom by decide) hws,
    takeTok_fst_eq_nil (show 0 < mountpointRoom by decide) hws₁,
    takeTok_fst_eq_nil (show 0 < typeRoom by decide) hws₂]
  split_ifs <;> simp_all

/-- With at least two words, one of the first two too long, or three words, there is a call. -/
theorem wordFields_isSome {w w₂ : CString} (hws : ∀ v ∈ w :: w₂ :: ws, v ≠ [])
    (h : ws ≠ [] ∨ sourceRoom < w.length ∨ mountpointRoom < w₂.length) :
    (wordFields (w :: w₂ :: ws)).isSome = true := by
  rw [wordFields_isSome_iff hws]
  rcases Nat.lt_or_ge sourceRoom w.length with hlong | hfits
  · rw [takeTok_long hlong]
    refine ⟨by simp, by simp, ?_⟩
    rw [takeTok]
    dsimp only
    split_ifs <;> simp
  · rw [takeTok_fits hfits]
    refine ⟨by simp, by simp, ?_⟩
    rcases Nat.lt_or_ge mountpointRoom w₂.length with hlong | hfits₂
    · simp [takeTok_long hlong]
    · rw [takeTok_fits hfits₂]
      rcases h with h | h | h
      · exact h
      · exact absurd h (Nat.not_lt.2 hfits)
      · exact absurd h (Nat.not_lt.2 hfits₂)

/-- A single word is called for where it fills two fields. -/
theorem wordFields_single {w : CString} (hw : w ≠ []) :
    (wordFields [w]).isSome = true ↔ sourceRoom + mountpointRoom < w.length := by
  rw [wordFields_isSome_iff (by simpa using hw)]
  rcases Nat.lt_or_ge sourceRoom w.length with hlong | hfits
  · rw [takeTok_long hlong]
    have hlen : (w.drop sourceRoom).length = w.length - sourceRoom := List.length_drop
    rcases Nat.lt_or_ge mountpointRoom (w.drop sourceRoom).length with hlong₂ | hfits₂
    · simp only [takeTok_long hlong₂, ne_eq, List.cons_ne_nil, not_false_eq_true, true_and, true_iff]
      omega
    · simp only [takeTok_fits hfits₂, ne_eq, not_true_eq_false, and_false, false_iff]
      omega
  · rw [takeTok_fits hfits]
    simp only [ne_eq, not_true_eq_false, false_and, and_false, false_iff]
    omega

/-- Three words that fit are called for as they are. -/
theorem wordFields_fits {w w₂ w₃ : CString} {rest : List CString} (hws : ∀ v ∈ w :: w₂ :: w₃ :: rest, v ≠ [])
    (h₁ : w.length ≤ sourceRoom) (h₂ : w₂.length ≤ mountpointRoom) (h₃ : w₃.length ≤ typeRoom)
    (h₄ : ∀ w₄ ∈ rest.head?, w₄.length ≤ flagsRoom) :
    wordFields (w :: w₂ :: w₃ :: rest) = some ⟨w, w₂, w₃, rest.head?.getD ['r', 'w']⟩ := by
  have hw : w ≠ [] := hws w (by simp)
  have hw₂ : w₂ ≠ [] := hws w₂ (by simp)
  have hw₃ : w₃ ≠ [] := hws w₃ (by simp)
  simp only [wordFields, takeTok_fits h₁, takeTok_fits h₂, takeTok_fits h₃, hw, hw₂, hw₃, if_false]
  cases rest with
  | nil => rfl
  | cons w₄ rest =>
      have hw₄ : w₄ ≠ [] := hws w₄ (by simp)
      simp only [takeTok_fits (h₄ w₄ rfl), hw₄, if_false, List.head?_cons, Option.getD_some]

/-- **One line.**  Where the words fit the call is the one that the line describes; otherwise the line describes
nothing, and there is a call. -/
theorem lineCall_cases (hws : ∀ w ∈ ws, w ≠ []) :
    WordsFit ws ∧ lineCall ws = lineEntry ws ∨
      ¬WordsFit ws ∧ (lineCall ws).isSome = true ∧ lineEntry ws = none := by
  rcases ws with _ | ⟨w, ws⟩
  · exact Or.inl ⟨trivial, rfl⟩
  by_cases hcomment : w.head? = some '#'
  · refine Or.inl ⟨?_, ?_⟩
    · rcases ws with _ | ⟨w₂, _ | ⟨w₃, rest⟩⟩ <;> exact Or.inl hcomment
    · rcases ws with _ | ⟨w₂, _ | ⟨w₃, rest⟩⟩ <;> simp [lineCall, lineEntry, hcomment]
  have hcall : lineCall (w :: ws) = wordFields (w :: ws) := by
    rw [lineCall, List.head?_cons, Option.bind_some, if_neg hcomment]
  rw [hcall]
  rcases ws with _ | ⟨w₂, _ | ⟨w₃, rest⟩⟩
  · have hsome := wordFields_single (hws w List.mem_cons_self)
    by_cases hlong : sourceRoom + mountpointRoom < w.length
    · exact Or.inr ⟨by simp [WordsFit, hcomment, hlong], hsome.2 hlong, rfl⟩
    · exact Or.inl ⟨Or.inr (Nat.le_of_not_lt hlong), Option.not_isSome_iff_eq_none.1 fun h => hlong (hsome.1 h)⟩
  · by_cases hfits : w.length ≤ sourceRoom ∧ w₂.length ≤ mountpointRoom
    · refine Or.inl ⟨Or.inr hfits, Option.not_isSome_iff_eq_none.1 fun hsome => ?_⟩
      rw [wordFields_isSome_iff hws, takeTok_fits hfits.1, takeTok_fits hfits.2] at hsome
      exact hsome.2.2 rfl
    · exact Or.inr ⟨by simp only [WordsFit, hcomment, false_or, hfits, not_false_eq_true],
        wordFields_isSome hws (by omega), rfl⟩
  · by_cases hfits : w.length ≤ sourceRoom ∧ w₂.length ≤ mountpointRoom ∧ w₃.length ≤ typeRoom ∧
        ∀ w₄ ∈ rest.head?, w₄.length ≤ flagsRoom
    · refine Or.inl ⟨Or.inr hfits, ?_⟩
      obtain ⟨h₁, h₂, h₃, h₄⟩ := hfits
      have hlong : ¬(sourceRoom < w.length ∨ mountpointRoom < w₂.length ∨ typeRoom < w₃.length ∨
          ∃ flags ∈ rest.head?, flagsRoom < flags.length) := by
        rintro (h | h | h | ⟨w₄, hw₄, h⟩)
        · exact Nat.not_lt.2 h₁ h
        · exact Nat.not_lt.2 h₂ h
        · exact Nat.not_lt.2 h₃ h
        · exact Nat.not_lt.2 (h₄ w₄ hw₄) h
      rw [wordFields_fits hws h₁ h₂ h₃ h₄]
      simp only [lineEntry, hcomment, hlong, if_false]
    · refine Or.inr ⟨by simp only [WordsFit, hcomment, false_or, hfits, not_false_eq_true],
        wordFields_isSome hws (Or.inl (by simp)), ?_⟩
      have hlong : sourceRoom < w.length ∨ mountpointRoom < w₂.length ∨ typeRoom < w₃.length ∨
          ∃ flags ∈ rest.head?, flagsRoom < flags.length := by
        by_contra hnone
        simp only [not_or, not_exists, not_and, not_lt] at hnone
        exact hfits hnone
      simp only [lineEntry, hcomment, hlong, if_false, if_true]

/-- Lists that agree element by element, or of which the first has an element more, agree only where all
elements agree. -/
theorem filterMap_eq_iff {α β : Type} {f g : α → Option β} {l : List α}
    (h : ∀ x ∈ l, f x = g x ∨ (f x).isSome = true ∧ g x = none) :
    l.filterMap f = l.filterMap g ↔ ∀ x ∈ l, f x = g x := by
  constructor
  · intro heq
    have hle : ∀ l : List α, (∀ x ∈ l, f x = g x ∨ (f x).isSome = true ∧ g x = none) →
        (l.filterMap g).length ≤ (l.filterMap f).length ∧
          ((l.filterMap f).length = (l.filterMap g).length → ∀ x ∈ l, f x = g x) := by
      intro l
      induction l with
      | nil => simp
      | cons a l ih =>
          intro hl
          obtain ⟨hlen, hall⟩ := ih fun x hx => hl x (List.mem_cons_of_mem a hx)
          rcases hl a List.mem_cons_self with hsame | ⟨hsome, hnone⟩
          · rw [List.filterMap_cons, List.filterMap_cons, hsame]
            cases hg : g a with
            | none =>
                refine ⟨hlen, fun hlen' => List.forall_mem_cons.2 ⟨hsame, hall hlen'⟩⟩
            | some b =>
                refine ⟨Nat.succ_le_succ hlen, fun hlen' => List.forall_mem_cons.2 ⟨hsame, hall ?_⟩⟩
                exact Nat.succ.inj hlen'
          · obtain ⟨b, hb⟩ := Option.isSome_iff_exists.1 hsome
            rw [List.filterMap_cons_some hb, List.filterMap_cons_none hnone, List.length_cons]
            exact ⟨by omega, fun hlen' => by omega⟩
    exact (hle l h).2 (congrArg List.length heq)
  · intro hall
    exact List.filterMap_congr hall

theorem wordsOf_ne_nil (line : CString) : ∀ w ∈ wordsOf line, w ≠ [] := by
  intro w hw
  simpa using (List.mem_filter.1 hw).2

/-- The calls are the entries that the lines describe exactly where the words of every line fit. -/
theorem fstabCalls_eq_iff (content : CString) :
    fstabCalls content = fstabEntries content ↔ ∀ line ∈ content.splitOn '\n', WordsFit (wordsOf line) := by
  have hcases := fun line : CString => lineCall_cases (wordsOf_ne_nil line)
  rw [fstabCalls, fstabEntries, filterMap_eq_iff]
  · refine forall₂_congr fun line _ => ?_
    rcases hcases line with ⟨hfit, heq⟩ | ⟨hfit, hsome, hnone⟩
    · exact ⟨fun _ => hfit, fun _ => heq⟩
    · refine ⟨fun heq => ?_, fun h => absurd h hfit⟩
      rw [heq, hnone] at hsome
      exact absurd hsome (by decide)
  · intro line _
    rcases hcases line with ⟨-, heq⟩ | ⟨-, hsome, hnone⟩
    · exact Or.inl heq
    · exact Or.inr ⟨hsome, hnone⟩

/-- **A table is parsed line by line and field by field**: whatever `apply_entry` does, it is called for the
entries that the lines describe, in order, exactly where the words of every line fit. -/
theorem fstabCalls_eq_entries_iff (content : CString) :
    (∀ (σ : Type) (applyEntry : σ → FstabEntry → Bool × σ) (s : σ), fstabMountString applyEntry content s
      = (fstabEntries content).foldl (fun m e => applyLine applyEntry m (some e)) (0, s)) ↔
    ∀ line ∈ content.splitOn '\n', WordsFit (wordsOf line) := by
  rw [← fstabCalls_eq_iff]
  refine ⟨fun h => ?_, fun h σ applyEntry s => by rw [fstabMountString_eq, h]⟩
  have hcalls := congrArg Prod.snd (h (List FstabEntry) (fun calls e => (true, calls ++ [e])) [])
  rwa [fstabMountString_eq, foldl_record, foldl_record] at hcalls

/-- A device name of 34 characters: the end of it is taken for the directory, and the directory for the type. -/
theorem fstabCalls_shifted :
    fstabMountString (fun calls e => (true, calls ++ [e])) "disk-with-a-name-that-is-too-long0 /mnt fat\n".toList []
      = (1, [⟨"disk-with-a-name-that-is-too-lo".toList, "ng0".toList, "/mnt".toList, "fat".toList⟩]) ∧
    fstabEntries "disk-with-a-name-that-is-too-long0 /mnt fat\n".toList = [] := by
  decide +kernel

end LighthOS
