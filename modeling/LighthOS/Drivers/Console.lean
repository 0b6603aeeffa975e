/-
# The text cursor

`console_putchar` and `ansi_execute` of `drivers/console.c` drive the text page of
`drivers/vga.c`: `vga_buffer` has 25 rows of 80 cells, and `vga_row` and `vga_col` are `int`s.
Bytes are shown, or move the cursor, or belong to an escape sequence `ESC [ p0 ; p1 ... cmd`,
whose parameters are `int`s that accumulate digit by digit and wrap around.

`ESC[nB` and `ESC[nC` add the parameter to the row or the column and then clamp it from above
only.  A sum that wraps around is negative and passes the clamp.  Every other byte keeps the
cursor on the page (`Good.consolePutchar`), and a byte stream keeps it there exactly if no
such sum wraps around (`cursor_onScreen_iff`).
-/

import LighthOS.Lib.Signed

namespace LighthOS

/-! ### The page -/

/-- The state of `drivers/vga.c`.  `VGA_WIDTH` is 80, `VGA_HEIGHT` is 25, and `stores` are the
indices of `vga_buffer` that were stored to. -/
structure Vga where
  row : ℤ
  col : ℤ
  color : UInt8
  buffer : ℤ → UInt16
  stores : List ℤ

namespace Vga

/-- `vga_entry`: `char` is signed. -/
def entry (c color : UInt8) : UInt16 := c.toInt8.toInt16.toUInt16 ||| (color.toUInt16 <<< 8)

/-- `vga_buffer[i] = x`. -/
def store (v : Vga) (i : ℤ) (x : UInt16) : Vga :=
  { v with buffer := Function.update v.buffer i x, stores := i :: v.stores }

/-- A loop that stores to `n` cells from `first` on. -/
def storeEach (v : Vga) (n : ℕ) (first : ℤ) (x : Vga → ℤ → UInt16) : Vga :=
  (List.range n).foldl (fun v (i : ℕ) => v.store (first + i) (x v (first + i))) v

/-- `n` blanks from `first` on. -/
def blank (v : Vga) (n : ℕ) (first : ℤ) : Vga := v.storeEach n first fun v _ => entry 0x20 v.color

/-- `vga_scroll`. -/
def scroll (v : Vga) : Vga :=
  if v.row < 25 then v
  else
    let v := v.storeEach (80 * 24) 0 fun v i => v.buffer (i + 80)
    { v.blank 80 (24 * 80) with row := 24 }

/-- `vga_clear`. -/
def clear (v : Vga) : Vga := { v.blank (80 * 25) 0 with row := 0, col := 0 }

/-- `vga_set_cursor`. -/
def setCursor (v : Vga) (row col : ℤ) : Vga := { v with row := row, col := col }

/-- `vga_putchar_at`. -/
def putcharAt (v : Vga) (c : UInt8) (row col : ℤ) : Vga :=
  if 0 ≤ row ∧ row < 25 ∧ 0 ≤ col ∧ col < 80 then
    v.store (row * 80 + col) (entry c v.color)
  else v

/-- The step to the next row at the end of a row. -/
def wrapLine (v : Vga) : Vga :=
  if 80 ≤ v.col then { v with col := 0, row := i32 (v.row + 1) } else v

/-- `vga_putchar`. -/
def putchar (v : Vga) (c : UInt8) : Vga :=
  let v :=
    if c = 0x0A then { v with col := 0, row := i32 (v.row + 1) }
    else if c = 0x09 then wrapLine { v with col := i32 (v.col + 8) / 8 * 8 }
    else if c = 0x0D then { v with col := 0 }
    else if c = 0x08 then
      if 0 < v.col then { v with col := v.col - 1 }
      else if 0 < v.row then { v with row := v.row - 1, col := 79 }
      else v
    else if c < 0x20 ∨ c = 0x7F then v
    else
      wrapLine { v.store (i32 (i32 (v.row * 80) + v.col)) (entry c v.color) with col := i32 (v.col + 1) }
  v.scroll

end Vga

/-! ### Escape sequences -/

/-- `enum ansi_state`. -/
inductive AnsiState
  | normal
  | esc
  | bracket
  deriving DecidableEq

/-- The state of `drivers/console.c`.  `params` are the parameters up to `ansi_param_count`,
and `serial` are the bytes that went to the serial line. -/
structure Console where
  ansi : AnsiState
  params : List ℤ
  cur : ℤ
  savedRow : ℤ
  savedCol : ℤ
  serial : List UInt8
  vga : Vga

namespace Console

/-- The code of a character. -/
def code (c : Char) : UInt8 := UInt8.ofNat c.toNat

/-- `ansi_reset`. -/
def ansiReset (s : Console) : Console := { s with ansi := .normal, params := [], cur := 0 }

/-- The end of a parameter; `ANSI_PARAM_MAX` is 4. -/
def storeParam (s : Console) : Console :=
  if s.params.length < 4 then { s with params := s.params ++ [s.cur] } else s

/-- `p0` of `ansi_execute`. -/
def p0 (s : Console) : ℤ := s.params.getD 0 0

/-- `p1` of `ansi_execute`. -/
def p1 (s : Console) : ℤ := s.params.getD 1 0

/-- How far a command moves the cursor. -/
def count (s : Console) : ℤ := if 0 < s.p0 then s.p0 else 1

/-- `vga_set_cursor`, from the console. -/
def setCursor (s : Console) (row col : ℤ) : Console := { s with vga := s.vga.setCursor row col }

/-- `if (x >= size) x = size - 1`. -/
def clampHigh (size : ℕ) (x : ℤ) : ℤ := if size ≤ x then size - 1 else x

/-- `if (x < 0) x = 0`. -/
def clampLow (x : ℤ) : ℤ := if x < 0 then 0 else x

/-- A row or a column that counts from 1. -/
def zeroBased (p : ℤ) : ℤ := if 0 < p then p - 1 else 0

/-- `ESC[K`: the cells from the cursor to the end of the row. -/
def eraseLine (v : Vga) : Vga :=
  (List.range (80 - v.col).toNat).foldl (fun w (i : ℕ) => w.putcharAt 0x20 v.row (v.col + i)) v

/-- `ansi_execute`. -/
def ansiExecute (s : Console) (cmd : UInt8) : Console :=
  if cmd = code 'H' ∨ cmd = code 'f' then
    s.setCursor (clampHigh 25 (zeroBased s.p0)) (clampHigh 80 (zeroBased s.p1))
  else if cmd = code 'J' then if s.p0 = 2 then { s with vga := s.vga.clear } else s
  else if cmd = code 'K' then { s with vga := (eraseLine s.vga).setCursor s.vga.row s.vga.col }
  else if cmd = code 'A' then s.setCursor (clampLow (i32 (s.vga.row - s.count))) s.vga.col
  else if cmd = code 'B' then s.setCursor (clampHigh 25 (i32 (s.vga.row + s.count))) s.vga.col
  else if cmd = code 'C' then s.setCursor s.vga.row (clampHigh 80 (i32 (s.vga.col + s.count)))
  else if cmd = code 'D' then s.setCursor s.vga.row (clampLow (i32 (s.vga.col - s.count)))
  else if cmd = code 's' then { s with savedRow := s.vga.row, savedCol := s.vga.col }
  else if cmd = code 'u' then s.setCursor s.savedRow s.savedCol
  else s

/-- `serial_putchar`, with a carriage return before a newline. -/
def toSerial (s : Console) (c : UInt8) : Console :=
  { s with serial := s.serial ++ (if c = 0x0A then [0x0D] else []) ++ [c] }

/-- The state machine of `console_putchar`. -/
def ansiStep (s : Console) (c : UInt8) : Console :=
  match s.ansi with
  | .normal => if c = 0x1B then { s with ansi := .esc } else { s with vga := s.vga.putchar c }
  | .esc => if c = code '[' then { s with ansi := .bracket, params := [], cur := 0 } else s.ansiReset
  | .bracket =>
      if code '0' ≤ c ∧ c ≤ code '9' then { s with cur := i32 (i32 (s.cur * 10) + (c.toNat - 48)) }
      else if c = code ';' then { s.storeParam with cur := 0 }
      else (s.storeParam.ansiExecute c).ansiReset

/-- `console_putchar`. -/
def consolePutchar (s : Console) (c : UInt8) : Console := (s.toSerial c).ansiStep c

/-- `console_write`. -/
def consoleWrite (s : Console) (buf : List UInt8) : Console := buf.foldl consolePutchar s

/-- The console after `vga_init`. -/
def boot (color : UInt8) (buffer : ℤ → UInt16) : Console :=
  ⟨.normal, [], 0, 0, 0, [], Vga.clear ⟨0, 0, color, buffer, []⟩⟩

end Console

/-! ### What keeps the cursor on the page -/

/-- A position on the page. -/
structure OnPage (row col : ℤ) : Prop where
  row_nonneg : 0 ≤ row
  row_lt : row < 25
  col_nonneg : 0 ≤ col
  col_lt : col < 80

namespace Vga

variable {v : Vga}

/-- All stores were to the page. -/
def Inside (v : Vga) : Prop := ∀ i ∈ v.stores, 0 ≤ i ∧ i < 80 * 25

theorem Inside.store (h : v.Inside) {i : ℤ} (hi : 0 ≤ i ∧ i < 80 * 25) (x : UInt16) :
    (v.store i x).Inside := by
  intro j hj
  rcases List.mem_cons.1 hj with rfl | hj
  · exact hi
  · exact h j hj

theorem storeEach_succ (v : Vga) (n : ℕ) (first : ℤ) (x : Vga → ℤ → UInt16) :
    v.storeEach (n + 1) first x =
      (v.storeEach n first x).store (first + n) (x (v.storeEach n first x) (first + n)) := by
  simp only [storeEach, List.range_succ, List.foldl_append, List.foldl_cons, List.foldl_nil]

theorem Inside.storeEach (h : v.Inside) (x : Vga → ℤ → UInt16) {first : ℤ} (hfirst : 0 ≤ first) (n : ℕ)
    (hn : first + n ≤ 80 * 25) : (v.storeEach n first x).Inside := by
  induction n with
  | zero => exact h
  | succ n ih =>
      rw [storeEach_succ]
      exact (ih (by omega)).store ⟨by omega, by omega⟩ _

theorem storeEach_col (v : Vga) (n : ℕ) (first : ℤ) (x : Vga → ℤ → UInt16) :
    (v.storeEach n first x).col = v.col := by
  induction n with
  | zero => rfl
  | succ n ih =>
      rw [storeEach_succ]
      exact ih

theorem blank_col (v : Vga) (n : ℕ) (first : ℤ) : (v.blank n first).col = v.col := storeEach_col ..

theorem Inside.blank (h : v.Inside) (first : ℤ) (n : ℕ) (hfirst : 0 ≤ first) (hn : first + n ≤ 80 * 25) :
    (v.blank n first).Inside := h.storeEach _ hfirst n hn

/-- `vga_scroll` brings the cursor back from the row below the page. -/
theorem scroll_onPage (hrow : 0 ≤ v.row) (hcol : 0 ≤ v.col ∧ v.col < 80) (h : v.Inside) :
    OnPage v.scroll.row v.scroll.col ∧ v.scroll.Inside := by
  unfold scroll
  split_ifs with hlow
  · exact ⟨⟨hrow, hlow, hcol.1, hcol.2⟩, h⟩
  · have hmoved := h.storeEach (fun v i => v.buffer (i + 80)) (Int.le_refl 0) (80 * 24) (by omega)
    have hblank := hmoved.blank (24 * 80) 80 (by omega) (by omega)
    simp only [Inside, blank_col, storeEach_col]
    exact ⟨⟨by omega, by omega, hcol.1, hcol.2⟩, hblank⟩

theorem clear_onPage (h : v.Inside) : OnPage v.clear.row v.clear.col ∧ v.clear.Inside := by
  have hblank := h.blank 0 (80 * 25) (by omega) (by omega)
  simp only [Inside, clear]
  exact ⟨⟨by decide, by decide, by decide, by decide⟩, hblank⟩

theorem wrapLine_bounds (hrow : 0 ≤ v.row ∧ v.row < 25) (hcol : 0 ≤ v.col) :
    0 ≤ v.wrapLine.row ∧ 0 ≤ v.wrapLine.col ∧ v.wrapLine.col < 80 := by
  have hnext : i32 (v.row + 1) = v.row + 1 := i32_eq_self (by omega) (by omega)
  unfold wrapLine
  split_ifs with hend
  · simp only [hnext]
    omega
  · exact ⟨hrow.1, hcol, by omega⟩

theorem Inside.wrapLine (h : v.Inside) : v.wrapLine.Inside := by
  unfold Vga.wrapLine
  split_ifs <;> exact h

/-- **`vga_putchar` keeps the cursor on the page,** and stores to the page. -/
theorem putchar_onPage (hp : OnPage v.row v.col) (h : v.Inside) (c : UInt8) :
    OnPage (v.putchar c).row (v.putchar c).col ∧ (v.putchar c).Inside := by
  obtain ⟨hrow, hrow', hcol, hcol'⟩ := hp
  have hdown : i32 (v.row + 1) = v.row + 1 := i32_eq_self (by omega) (by omega)
  have hnext : i32 (v.col + 1) = v.col + 1 := i32_eq_self (by omega) (by omega)
  have htab : i32 (v.col + 8) = v.col + 8 := i32_eq_self (by omega) (by omega)
  have hmul : i32 (v.row * 80) = v.row * 80 := i32_eq_self (by omega) (by omega)
  have hcell : i32 (v.row * 80 + v.col) = v.row * 80 + v.col := i32_eq_self (by omega) (by omega)
  unfold putchar
  rw [hdown, hnext, htab, hmul, hcell]
  split_ifs with h1 h2 h3 h4 h5 h6 h7
  · exact scroll_onPage (by simp only; omega) (by simp) h
  · obtain ⟨hr, hc⟩ := wrapLine_bounds (v := { v with col := (v.col + 8) / 8 * 8 }) ⟨hrow, hrow'⟩
      (by simp only; omega)
    exact scroll_onPage hr hc (Inside.wrapLine h)
  · exact scroll_onPage hrow (by simp) h
  · exact scroll_onPage hrow (by simp only; omega) h
  · exact scroll_onPage (by simp only; omega) (by simp) h
  · exact scroll_onPage hrow ⟨hcol, hcol'⟩ h
  · exact scroll_onPage hrow ⟨hcol, hcol'⟩ h
  · have hin := h.store (i := v.row * 80 + v.col) (by omega) (entry c v.color)
    obtain ⟨hr, hc⟩ := wrapLine_bounds (v := { v.store (v.row * 80 + v.col) (entry c v.color) with
      col := v.col + 1 }) ⟨hrow, hrow'⟩ (by simp only; omega)
    exact scroll_onPage hr hc (Inside.wrapLine hin)

theorem Inside.putcharAt (h : v.Inside) (c : UInt8) (row col : ℤ) : (v.putcharAt c row col).Inside := by
  unfold Vga.putcharAt
  split_ifs with hin
  · exact h.store (by omega) _
  · exact h

end Vga

namespace Console

variable {s : Console}

/-- The state between two bytes: cursor and saved cursor are on the page, the parameters are
`int`s. -/
structure Good (s : Console) : Prop where
  page : OnPage s.vga.row s.vga.col
  inside : s.vga.Inside
  saved : OnPage s.savedRow s.savedCol
  params_lt : ∀ p ∈ s.params, p < 2 ^ 31
  cur_lt : s.cur < 2 ^ 31

/-- The byte ends an `ESC[nB` or `ESC[nC` whose sum is too large for an `int`. -/
def Overflows (s : Console) (c : UInt8) : Prop :=
  s.ansi = .bracket ∧
    ((c = code 'B' ∧ 2 ^ 31 ≤ s.vga.row + s.storeParam.count) ∨
      (c = code 'C' ∧ 2 ^ 31 ≤ s.vga.col + s.storeParam.count))

theorem Good.storeParam (h : s.Good) : s.storeParam.Good := by
  unfold Console.storeParam
  split_ifs
  · refine ⟨h.page, h.inside, h.saved, fun p hp => ?_, h.cur_lt⟩
    rcases List.mem_append.1 hp with hp | hp
    · exact h.params_lt p hp
    · rw [List.mem_singleton.1 hp]
      exact h.cur_lt
  · exact h

@[simp]
theorem storeParam_vga (s : Console) : s.storeParam.vga = s.vga := by
  unfold storeParam
  split_ifs <;> rfl

theorem toSerial_storeParam (s : Console) (c : UInt8) : (s.toSerial c).storeParam = s.storeParam.toSerial c := by
  unfold storeParam
  split_ifs <;> first | rfl | contradiction

theorem Good.count_bounds (h : s.Good) : 1 ≤ s.count ∧ s.count < 2 ^ 31 := by
  unfold count
  split_ifs with hpos
  · refine ⟨hpos, ?_⟩
    unfold p0
    cases hp : s.params with
    | nil => simp
    | cons p ps => exact h.params_lt p (by simp [hp])
  · decide

theorem Good.ansiReset (h : s.Good) : s.ansiReset.Good :=
  ⟨h.page, h.inside, h.saved, by simp [Console.ansiReset], by simp [Console.ansiReset]⟩

theorem Good.setCursor (h : s.Good) {row col : ℤ} (hp : OnPage row col) : (s.setCursor row col).Good :=
  ⟨hp, h.inside, h.saved, h.params_lt, h.cur_lt⟩

theorem zeroBased_nonneg (p : ℤ) : 0 ≤ zeroBased p := by
  unfold zeroBased
  split_ifs <;> omega

theorem clampHigh_bounds (size : ℕ) (hsize : 0 < size) {x : ℤ} (hx : 0 ≤ x) :
    0 ≤ clampHigh size x ∧ clampHigh size x < size := by
  unfold clampHigh
  split_ifs <;> omega

theorem clampLow_bounds {x size : ℤ} (hsize : 0 < size) (hx : x < size) :
    0 ≤ clampLow x ∧ clampLow x < size := by
  unfold clampLow
  split_ifs <;> omega

theorem eraseLine_inside {v : Vga} (h : v.Inside) : (eraseLine v).Inside := by
  have hfold : ∀ (l : List ℕ) (w : Vga), w.Inside →
      (l.foldl (fun w (i : ℕ) => w.putcharAt 0x20 v.row (v.col + i)) w).Inside := by
    intro l
    induction l with
    | nil => exact fun _ hw => hw
    | cons i l ih => exact fun w hw => ih _ (hw.putcharAt _ _ _)
  exact hfold _ v h

/-- **A command keeps the cursor on the page,** unless its sum wraps around. -/
theorem Good.ansiExecute (h : s.Good) {cmd : UInt8}
    (hB : cmd = code 'B' → s.vga.row + s.count < 2 ^ 31)
    (hC : cmd = code 'C' → s.vga.col + s.count < 2 ^ 31) : (s.ansiExecute cmd).Good := by
  obtain ⟨hn, hn'⟩ := h.count_bounds
  obtain ⟨hrow, hrow', hcol, hcol'⟩ := h.page
  unfold Console.ansiExecute
  split_ifs with hH hJ h2 hK hA hdown hright hD hs hu
  · obtain ⟨hr, hr'⟩ := clampHigh_bounds 25 (by decide) (zeroBased_nonneg s.p0)
    obtain ⟨hc, hc'⟩ := clampHigh_bounds 80 (by decide) (zeroBased_nonneg s.p1)
    exact h.setCursor ⟨hr, hr', hc, hc'⟩
  · obtain ⟨hp, hi⟩ := Vga.clear_onPage h.inside
    exact ⟨hp, hi, h.saved, h.params_lt, h.cur_lt⟩
  · exact h
  · exact ⟨⟨hrow, hrow', hcol, hcol'⟩, eraseLine_inside h.inside, h.saved, h.params_lt, h.cur_lt⟩
  · have hup : i32 (s.vga.row - s.count) = s.vga.row - s.count := i32_eq_self (by omega) (by omega)
    rw [hup]
    obtain ⟨hr, hr'⟩ := clampLow_bounds (x := s.vga.row - s.count) (by decide : (0 : ℤ) < 25) (by omega)
    exact h.setCursor ⟨hr, hr', hcol, hcol'⟩
  · rw [i32_eq_self (by omega) (hB hdown)]
    obtain ⟨hr, hr'⟩ := clampHigh_bounds 25 (by decide) (x := s.vga.row + s.count) (by omega)
    exact h.setCursor ⟨hr, hr', hcol, hcol'⟩
  · rw [i32_eq_self (by omega) (hC hright)]
    obtain ⟨hc, hc'⟩ := clampHigh_bounds 80 (by decide) (x := s.vga.col + s.count) (by omega)
    exact h.setCursor ⟨hrow, hrow', hc, hc'⟩
  · have hback : i32 (s.vga.col - s.count) = s.vga.col - s.count := i32_eq_self (by omega) (by omega)
    rw [hback]
    obtain ⟨hc, hc'⟩ := clampLow_bounds (x := s.vga.col - s.count) (by decide : (0 : ℤ) < 80) (by omega)
    exact h.setCursor ⟨hrow, hrow', hc, hc'⟩
  · exact ⟨h.page, h.inside, ⟨hrow, hrow', hcol, hcol'⟩, h.params_lt, h.cur_lt⟩
  · exact h.setCursor h.saved
  · exact h

/-- **A byte keeps the cursor on the page,** unless it makes a sum wrap around. -/
theorem Good.consolePutchar (h : s.Good) {c : UInt8} (hc : ¬ s.Overflows c) : (s.consolePutchar c).Good := by
  have h' : (s.toSerial c).Good := ⟨h.page, h.inside, h.saved, h.params_lt, h.cur_lt⟩
  unfold Console.consolePutchar ansiStep
  split
  · split_ifs
    · exact ⟨h.page, h.inside, h.saved, h.params_lt, h.cur_lt⟩
    · obtain ⟨hp, hi⟩ := Vga.putchar_onPage h.page h.inside c
      exact ⟨hp, hi, h.saved, h.params_lt, h.cur_lt⟩
  · split_ifs
    · exact ⟨h.page, h.inside, h.saved, by simp, by simp⟩
    · exact h'.ansiReset
  · rename_i hansi
    have hparam := h'.storeParam
    split_ifs
    · exact ⟨h.page, h.inside, h.saved, h.params_lt, (i32_range _).2⟩
    · exact ⟨hparam.page, hparam.inside, hparam.saved, hparam.params_lt, by simp⟩
    · have hrow : (s.storeParam.toSerial c).vga.row = s.vga.row := congrArg Vga.row s.storeParam_vga
      have hcol : (s.storeParam.toSerial c).vga.col = s.vga.col := congrArg Vga.col s.storeParam_vga
      have hcount : (s.storeParam.toSerial c).count = s.storeParam.count := rfl
      rw [toSerial_storeParam] at hparam ⊢
      refine (hparam.ansiExecute (fun hB => ?_) fun hC => ?_).ansiReset
      · rw [hrow, hcount]
        exact Int.not_le.1 fun hlarge => hc ⟨hansi, .inl ⟨hB, hlarge⟩⟩
      · rw [hcol, hcount]
        exact Int.not_le.1 fun hlarge => hc ⟨hansi, .inr ⟨hC, hlarge⟩⟩

theorem i32_neg_of_overflow {x n : ℤ} (hx : x < 80) (hn : n < 2 ^ 31) (hsum : 2 ^ 31 ≤ x + n) :
    i32 (x + n) < 0 := by
  rw [i32_of_overflow hsum (by omega)]
  omega

theorem clampHigh_neg (size : ℕ) {x : ℤ} (hx : x < 0) : clampHigh size x < 0 := by
  unfold clampHigh
  split_ifs <;> omega

/-- A byte that ends an escape sequence. -/
theorem consolePutchar_command (hansi : s.ansi = .bracket) {c : UInt8}
    (hdigit : ¬ (code '0' ≤ c ∧ c ≤ code '9')) (hsemi : c ≠ code ';') :
    s.consolePutchar c = ((s.storeParam.toSerial c).ansiExecute c).ansiReset := by
  have hansi' : (s.toSerial c).ansi = .bracket := hansi
  simp only [consolePutchar, ansiStep, hansi', if_neg hdigit, if_neg hsemi, toSerial_storeParam]

/-- **A sum that wraps around takes the cursor off the page.** -/
theorem Good.not_onPage_of_overflows (h : s.Good) {c : UInt8} (hc : s.Overflows c) :
    ¬ OnPage (s.consolePutchar c).vga.row (s.consolePutchar c).vga.col := by
  obtain ⟨hansi, hsum⟩ := hc
  have hcount := h.storeParam.count_bounds.2
  have hrow := h.page.row_lt
  have hcol := h.page.col_lt
  rcases hsum with ⟨rfl, hsum⟩ | ⟨rfl, hsum⟩
  · have hneg := clampHigh_neg 25 (i32_neg_of_overflow (by omega) hcount hsum)
    rw [consolePutchar_command hansi (by decide) (by decide)]
    intro hp
    have hrow' : 0 ≤ clampHigh 25 (i32 (s.storeParam.vga.row + s.storeParam.count)) := hp.row_nonneg
    rw [storeParam_vga] at hrow'
    omega
  · have hneg := clampHigh_neg 80 (i32_neg_of_overflow hcol hcount hsum)
    rw [consolePutchar_command hansi (by decide) (by decide)]
    intro hp
    have hcol' : 0 ≤ clampHigh 80 (i32 (s.storeParam.vga.col + s.storeParam.count)) := hp.col_nonneg
    rw [storeParam_vga] at hcol'
    omega

/-- After every byte of the stream the cursor is on the page, and all stores were to it. -/
def StaysOnPage (s : Console) (buf : List UInt8) : Prop :=
  ∀ pre, pre <+: buf → OnPage (s.consoleWrite pre).vga.row (s.consoleWrite pre).vga.col ∧
    (s.consoleWrite pre).vga.Inside

/-- No byte of the stream makes a sum wrap around. -/
def NeverOverflows (s : Console) (buf : List UInt8) : Prop :=
  ∀ pre c, pre ++ [c] <+: buf → ¬ (s.consoleWrite pre).Overflows c

theorem Good.staysOnPage_iff (h : s.Good) (buf : List UInt8) : s.StaysOnPage buf ↔ s.NeverOverflows buf := by
  induction buf generalizing s with
  | nil =>
      constructor
      · intro _ pre c hpre
        simp at hpre
      · intro _ pre hpre
        rw [List.prefix_nil.1 hpre]
        exact ⟨h.page, h.inside⟩
  | cons c buf ih =>
      by_cases hc : s.Overflows c
      · constructor
        · intro hstays
          have hfirst := hstays [c] (by simp)
          exact absurd hfirst.1 (h.not_onPage_of_overflows hc)
        · intro hnever
          exact absurd hc (hnever [] c (by simp))
      · have hnext := ih (h.consolePutchar hc)
        constructor
        · intro hstays pre d hpre
          cases pre with
          | nil =>
              obtain rfl : d = c := by simpa using hpre
              exact hc
          | cons b pre =>
              obtain ⟨rfl, hrest⟩ := List.cons_prefix_cons.1 hpre
              exact hnext.1 (fun q hq => hstays (b :: q) (List.cons_prefix_cons.2 ⟨rfl, hq⟩)) pre d hrest
        · intro hnever pre hpre
          cases pre with
          | nil => exact ⟨h.page, h.inside⟩
          | cons b pre =>
              obtain ⟨rfl, hrest⟩ := List.cons_prefix_cons.1 hpre
              exact hnext.2 (fun q d hq => hnever (b :: q) d (List.cons_prefix_cons.2 ⟨rfl, hq⟩)) pre hrest

theorem boot_good (color : UInt8) (buffer : ℤ → UInt16) : (boot color buffer).Good := by
  have hempty : (⟨0, 0, color, buffer, []⟩ : Vga).Inside := by simp [Vga.Inside]
  obtain ⟨hp, hi⟩ := Vga.clear_onPage hempty
  have hsaved : OnPage 0 0 := ⟨by decide, by decide, by decide, by decide⟩
  exact ⟨hp, hi, hsaved, by simp [boot], by simp [boot]⟩

/-- **The text cursor stays on the screen exactly if no parameter wraps it around:** after
every byte of a stream `vga_row` and `vga_col` are on the page and all stores were to it, if
and only if no `ESC[nB` and no `ESC[nC` in it comes where the row or the column plus `n` is
too large for an `int`. -/
theorem cursor_onScreen_iff (color : UInt8) (buffer : ℤ → UInt16) (buf : List UInt8) :
    (boot color buffer).StaysOnPage buf ↔ (boot color buffer).NeverOverflows buf :=
  (boot_good color buffer).staysOnPage_iff buf

/-- A newline and `ESC[2147483647B` take the cursor to row `-2147483648`. -/
theorem cursor_leaves_screen : ∃ buf : List UInt8,
    ((boot 7 fun _ => 0).consoleWrite buf).vga.row = -2147483648 ∧ ¬ (boot 7 fun _ => 0).StaysOnPage buf := by
  have hrow : ((boot 7 fun _ => 0).consoleWrite (0x0A :: 0x1B :: "[2147483647B".toList.map code)).vga.row =
      -2147483648 := by decide +kernel
  refine ⟨_, hrow, fun hstays => ?_⟩
  have := (hstays _ (List.prefix_refl _)).1.row_nonneg
  omega

end Console

end LighthOS
