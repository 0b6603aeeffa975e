/-
# Formatted output

`vsnprintf` and `dtoa` of `user/libc/snprintf.c`.  What the scan of the format reads does not
depend on the output, so it is a list of items (`items`): characters, and conversions with
their flags, width, precision and argument.  An argument is what `va_arg` may take it for: a
number of 64 bits, the string at that address, or a `double`.  The arithmetic of `double` is a
parameter.  `int` wraps around.

A conversion stores to a scratch buffer, `tmp` of 32 bytes or `fbuf` of 64 bytes, and then
emits characters.  `vsnprintf` gives nothing where a store is outside its buffer.

The text of a format (`formatted`) does not mention the buffer, and `vsnprintf` writes what
fits of it (`vsnprintf_truncates`).
-/

import LighthOS.Kernel.Path
import LighthOS.Lib.Signed
import Mathlib.Data.Nat.Digits.Lemmas

namespace LighthOS

/-! ### `utoa` and `dtoa` -/

/-- `d[k]`. -/
def digitChar (upper : Bool) (k : ℕ) : Char :=
  (if upper then "0123456789ABCDEF" else "0123456789abcdef").toList.getD k '0'

/-- `utoa`: what it stores to `tmp`, the lowest digit first. -/
def utoa (val base : ℕ) (upper : Bool) : CString :=
  if val = 0 then ['0'] else (Nat.digits base val).map (digitChar upper)

/-- The arithmetic of `double`, as far as `dtoa` uses it.  Divisions by ten bring a number that
is not above `1e308` below ten. -/
structure Doubles (F : Type) where
  isNan : F → Bool
  lt : F → F → Bool
  le : F → F → Bool
  neg : F → F
  add : F → F → F
  sub : F → F → F
  mul : F → F → F
  div : F → F → F
  ofInt : ℤ → F
  half : F
  huge : F
  toInt : F → ℤ
  scaled : ∀ v, lt huge v = false → ∃ n, le (ofInt 10) ((fun v => div v (ofInt 10))^[n] v) = false

namespace Doubles

variable {F : Type} (D : Doubles F)

/-- `v /= 10.0`. -/
def tenth (v : F) : F := D.div v (D.ofInt 10)

/-- The loop `while (v >= 10.0)`. -/
def scaleDown (v : F) (hv : D.lt D.huge v = false) : F × ℤ :=
  let n := Nat.find (D.scaled v hv)
  (D.tenth^[n] v, n)

/-- The loop `while (v < 1.0 && exp > -300)`, with `exp + 300` rounds left. -/
def scaleUp : ℕ → F → ℤ → F × ℤ
  | 0, v, exp => (v, exp)
  | n + 1, v, exp =>
      if D.lt v (D.ofInt 1) then scaleUp n (D.mul v (D.ofInt 10)) (exp - 1) else (v, exp)

/-- The mantissa and the decimal exponent. -/
def decompose (v : F) (hv : D.lt D.huge v = false) : F × ℤ :=
  if D.lt (D.ofInt 0) v then
    let (v, exp) := D.scaleDown v hv
    D.scaleUp (exp + 300).toNat v exp
  else (v, 0)

/-- `digits` of `dtoa`. -/
def digitCount (conv : Char) (prec : ℤ) : ℤ :=
  if conv = 'g' then (if 0 < prec then prec else 1) else i32 (prec + 1)

/-- The mantissa and the exponent after rounding. -/
def rounded (conv : Char) (prec : ℤ) (v : F) (exp : ℤ) : F × ℤ :=
  let v := D.add v (D.tenth^[(digitCount conv prec).toNat] D.half)
  if D.le (D.ofInt 10) v then (D.tenth v, exp + 1) else (v, exp)

/-- `use_exp`. -/
def useExp (conv : Char) (prec exp : ℤ) : Bool :=
  conv == 'e' || (conv == 'g' && (decide (exp < -4) || decide (prec ≤ exp)))

/-- `(int)v`, as a digit. -/
def digitOf (v : F) : ℤ := max 0 (min 9 (D.toInt v))

/-- `'0' + d`. -/
def digitText (d : ℤ) : Char := Char.ofNat (48 + d).toNat

/-- The loop over the digits of the decimal form. -/
def plainDigits : ℕ → F → CString × F
  | 0, v => ([], v)
  | n + 1, v =>
      let dd := D.digitOf v
      let (out, v) := plainDigits n (D.mul (D.sub v (D.ofInt dd)) (D.ofInt 10))
      (digitText dd :: out, v)

/-- The loop over the digits behind the point of the form with an exponent. -/
def expDigits : ℕ → F → CString
  | 0, _ => []
  | n + 1, v =>
      let v := D.mul v (D.ofInt 10)
      let dd := D.digitOf v
      digitText dd :: expDigits n (D.sub v (D.ofInt dd))

/-- The form `d.ddde+NN`. -/
def expForm (digits : ℤ) (v : F) (exp : ℤ) : CString :=
  let d := D.toInt v
  [digitText d] ++ (if 1 < digits then ['.'] else []) ++ D.expDigits (digits - 1).toNat (D.sub v (D.ofInt d)) ++
    ['e', if exp < 0 then '-' else '+'] ++ (if exp.natAbs < 10 then ['0'] else []) ++
    (utoa exp.natAbs 10 false).reverse

/-- `after_dot`. -/
def afterDot (conv : Char) (prec exp : ℤ) : ℤ :=
  max 0 (if conv = 'g' then prec - max 1 (exp + 1) else prec)

/-- The decimal form, before the zeros of `%g` are cut off. -/
def plainForm (conv : Char) (prec : ℤ) (v : F) (exp : ℤ) : CString :=
  let (whole, v) := if exp < 0 then (['0'], v) else D.plainDigits (exp + 1).toNat v
  let after := afterDot conv prec exp
  if 0 < after then
    let zeros := min (-(exp + 1)).toNat after.toNat
    whole ++ '.' :: List.replicate zeros '0' ++ (D.plainDigits (after.toNat - zeros) v).1
  else whole

/-- The zeros at the end of a text with a point, and the point, as `%g` cuts them off. -/
def trimZeros (out : CString) : CString :=
  let out := out.rdropWhile (· == '0')
  if out.getLast? = some '.' then out.dropLast else out

/-- `dtoa`: all that it stores to `out`, one character behind the other, and the text that is
there in the end. -/
def dtoa (v : F) (conv : Char) (prec : ℤ) : CString × CString :=
  let prec := if prec < 0 then 6 else prec
  if D.isNan v then ("nan".toList, "nan".toList)
  else
    let (sign, v) := if D.lt v (D.ofInt 0) then (['-'], D.neg v) else ([], v)
    if hv : D.lt D.huge v then (sign ++ "inf".toList, sign ++ "inf".toList)
    else
      let (v, exp) := D.decompose v (by simpa using hv)
      let (v', exp') := D.rounded conv prec v exp
      if useExp conv prec exp then
        let out := sign ++ D.expForm (digitCount conv prec) v' exp'
        (out, out)
      else
        let out := sign ++ D.plainForm conv prec v' exp'
        (out, if conv = 'g' ∧ 0 < afterDot conv prec exp' then trimZeros out else out)

end Doubles

/-! ### The format -/

/-- An argument. -/
structure VaArg (F : Type) where
  word : ℕ
  str : CString
  dbl : F

/-- The flags of a conversion. -/
structure Flags where
  left : Bool
  zero : Bool
  plus : Bool
  space : Bool
  alt : Bool

/-- A conversion, with its argument. -/
structure Directive (F : Type) where
  flags : Flags
  width : ℤ
  prec : ℤ
  lng : ℕ
  conv : Char
  arg : VaArg F

/-- What the format asks for. -/
inductive Item (F : Type)
  | char (c : Char)
  | conv (d : Directive F)

/-- The loop over the flags. -/
def scanFlags (f : Flags) : CString → Flags × CString
  | '-' :: fmt => scanFlags { f with left := true } fmt
  | '0' :: fmt => scanFlags { f with zero := true } fmt
  | '+' :: fmt => scanFlags { f with plus := true } fmt
  | ' ' :: fmt => scanFlags { f with space := true } fmt
  | '#' :: fmt => scanFlags { f with alt := true } fmt
  | fmt => (f, fmt)

/-- The loop over the digits of a width or a precision. -/
def scanNumber (n : ℤ) : CString → ℤ × CString
  | [] => (n, [])
  | c :: fmt => if c.isDigit then scanNumber (i32 (n * 10 + (c.toNat - 48))) fmt else (n, c :: fmt)

section Scan

variable {F : Type} (args : ℕ → VaArg F)

/-- A width or a precision: `*` takes an argument. -/
def scanSize (a : ℕ) : CString → ℤ × CString × ℕ
  | '*' :: fmt => (i32 (args a).word, fmt, a + 1)
  | fmt => let (n, fmt) := scanNumber 0 fmt; (n, fmt, a)

/-- The length modifier. -/
def scanLength : CString → ℕ × CString
  | 'l' :: 'l' :: fmt => (2, fmt)
  | 'l' :: fmt => (1, fmt)
  | 'z' :: fmt => (3, fmt)
  | 'h' :: 'h' :: fmt => (0, fmt)
  | 'h' :: fmt => (0, fmt)
  | fmt => (0, fmt)

/-- Whether a conversion takes an argument. -/
def takesArg (conv : Char) : Bool := "diuxXopscgGeEfF".toList.contains conv

/-- The conversion behind a `%`, what follows it, and the next argument; none where the format
ends before it. -/
def scanDirective (a : ℕ) (fmt : CString) : Option (Directive F × CString × ℕ) :=
  let (flags, fmt) := scanFlags ⟨false, false, false, false, false⟩ fmt
  let (width, fmt, a) := scanSize args a fmt
  let (prec, fmt, a) := match fmt with
    | '.' :: fmt => scanSize args a fmt
    | fmt => (-1, fmt, a)
  let (lng, fmt) := scanLength fmt
  match fmt with
  | [] => none
  | conv :: fmt => some (⟨flags, width, prec, lng, conv, args a⟩, fmt, if takesArg conv then a + 1 else a)

/-- The scan of the format; `skip` characters belong to the conversion before them. -/
def items : CString → ℕ → ℕ → List (Item F)
  | [], _, _ => []
  | _ :: fmt, skip + 1, a => items fmt skip a
  | c :: fmt, 0, a =>
      if c ≠ '%' then .char c :: items fmt 0 a
      else match scanDirective args a fmt with
        | none => []
        | some (d, rest, a) => .conv d :: items fmt (fmt.length - rest.length) a

end Scan

/-! ### The conversions -/

/-- `buf_t`. -/
structure Buf where
  out : ℕ → Char
  pos : ℕ
  cap : ℕ

namespace Buf

/-- `emit`. -/
def emit (b : Buf) (c : Char) : Buf :=
  { b with out := if b.pos + 1 < b.cap then Function.update b.out b.pos c else b.out, pos := b.pos + 1 }

/-- `while (n-- > 0) emit(&b, c)`. -/
def emitTimes (b : Buf) (n : ℤ) (c : Char) : Buf := (fun b => emit b c)^[n.toNat] b

/-- `emit_str`, and the loops that emit a text. -/
def emitStr (b : Buf) (s : CString) : Buf := s.foldl emit b

end Buf

/-- The scratch buffers. -/
inductive Scratch
  | tmp
  | fbuf
  deriving DecidableEq

/-- `sizeof`. -/
def Scratch.size : Scratch → ℕ
  | .tmp => 32
  | .fbuf => 64

namespace Directive

variable {F : Type} (D : Doubles F) (d : Directive F)

/-- The argument of `%d`. -/
def signedArg : ℤ := if 1 ≤ d.lng then i64 d.arg.word else i32 d.arg.word

/-- The argument of `%u`, `%x` and `%o`. -/
def unsignedArg : ℕ := if 1 ≤ d.lng then d.arg.word % 2 ^ 64 else d.arg.word % 2 ^ 32

/-- The number of an integer conversion, its base, its case and its prefix. -/
def number : Option (ℕ × ℕ × Bool × CString) :=
  match d.conv with
  | 'd' | 'i' => some (d.signedArg.natAbs, 10, false,
      if d.signedArg < 0 then ['-'] else if d.flags.plus then ['+'] else if d.flags.space then [' '] else [])
  | 'u' => some (d.unsignedArg, 10, false, [])
  | 'x' => some (d.unsignedArg, 16, false, if d.flags.alt ∧ d.unsignedArg ≠ 0 then ['0', 'x'] else [])
  | 'X' => some (d.unsignedArg, 16, true, if d.flags.alt ∧ d.unsignedArg ≠ 0 then ['0', 'X'] else [])
  | 'o' => some (d.unsignedArg, 8, false, if d.flags.alt then ['0'] else [])
  | 'p' => some (d.arg.word % 2 ^ 64, 16, false, ['0', 'x'])
  | _ => none

/-- A conversion of a `double`. -/
def IsFloat : Prop := d.conv ∈ ['g', 'G', 'e', 'E', 'f', 'F']

instance : Decidable d.IsFloat := inferInstanceAs (Decidable (_ ∈ _))

/-- The call of `dtoa`. -/
def float : CString × CString := D.dtoa d.arg.dbl d.conv.toLower (if 0 ≤ d.prec then d.prec else 6)

/-- The stores to the scratch buffers. -/
def stores : List (Scratch × ℕ) :=
  match d.number with
  | some (u, base, upper, _) => (List.range (utoa u base upper).length).map (.tmp, ·)
  | none => if d.IsFloat then (List.range (d.float D).1.length).map (.fbuf, ·) else []

/-- All stores are inside their buffers. -/
def InBounds : Prop := ∀ s ∈ d.stores D, s.2 < s.1.size

instance : Decidable (d.InBounds D) := inferInstanceAs (Decidable (∀ _ ∈ _, _))

/-- A text in a field of the given width. -/
def emitField (b : Buf) (s : CString) : Buf :=
  let pad := i32 (d.width - s.length)
  let b := if !d.flags.left then b.emitTimes pad ' ' else b
  let b := b.emitStr s
  if d.flags.left then b.emitTimes pad ' ' else b

/-- An integer. -/
def emitNumber (b : Buf) (u base : ℕ) (upper : Bool) (pre : CString) : Buf :=
  let tmp := utoa u base upper
  let zeros := if 0 ≤ d.prec ∧ (tmp.length : ℤ) < d.prec then d.prec - tmp.length else 0
  let tmp := if d.prec = 0 ∧ u = 0 then [] else tmp
  let zero := d.flags.zero && !decide (0 ≤ d.prec)
  let pad := i32 (d.width - i32 (pre.length + tmp.length + zeros))
  let b := if !d.flags.left && !zero then b.emitTimes pad ' ' else b
  let b := b.emitStr pre
  let b := if !d.flags.left && zero then b.emitTimes pad '0' else b
  let b := b.emitTimes zeros '0'
  let b := b.emitStr tmp.reverse
  if d.flags.left then b.emitTimes pad ' ' else b

/-- The characters that `%s` takes. -/
def strText : CString :=
  let s := if d.arg.word = 0 then "(null)".toList else d.arg.str
  if d.prec < 0 then s else s.take d.prec.toNat

/-- One conversion. -/
def run (b : Buf) : Buf :=
  match d.number with
  | some (u, base, upper, pre) => d.emitNumber b u base upper pre
  | none =>
      if d.conv = 's' then d.emitField b d.strText
      else if d.conv = 'c' then d.emitField b [Char.ofNat (d.arg.word % 256)]
      else if d.IsFloat then d.emitField b (d.float D).2
      else if d.conv = '%' then b.emit '%'
      else (b.emit '%').emit d.conv

end Directive

section Vsnprintf

variable {F : Type} (D : Doubles F)

/-- One round of the loop of `vsnprintf`. -/
def Item.run (b : Buf) : Item F → Option Buf
  | .char c => some (b.emit c)
  | .conv d => if d.InBounds D then some (d.run D b) else none

/-- The end of `vsnprintf`: the terminator, and the number that it returns. -/
def Buf.finish (b : Buf) : ℤ × (ℕ → Char) :=
  (i32 b.pos,
    if 0 < b.cap then Function.update b.out (if b.pos < b.cap then b.pos else b.cap - 1) '\x00' else b.out)

/-- `vsnprintf`: what it returns, and the memory from `out` on. -/
def vsnprintf (out : ℕ → Char) (size : ℕ) (fmt : CString) (args : ℕ → VaArg F) : Option (ℤ × (ℕ → Char)) :=
  ((items args fmt 0 0).foldlM (Item.run D) ⟨out, 0, size⟩).map Buf.finish

end Vsnprintf

/-! ### The text of a format -/

namespace Directive

variable {F : Type} (D : Doubles F) (d : Directive F)

/-- A text in a field of the given width. -/
def fieldText (s : CString) : CString :=
  let pad := List.replicate (i32 (d.width - s.length)).toNat ' '
  if d.flags.left then s ++ pad else pad ++ s

/-- The text of an integer. -/
def numberText (u base : ℕ) (upper : Bool) (pre : CString) : CString :=
  let tmp := utoa u base upper
  let zeros := if 0 ≤ d.prec ∧ (tmp.length : ℤ) < d.prec then d.prec - tmp.length else 0
  let tmp := if d.prec = 0 ∧ u = 0 then [] else tmp
  let zero := d.flags.zero && !decide (0 ≤ d.prec)
  let pad := (i32 (d.width - i32 (pre.length + tmp.length + zeros))).toNat
  let digits := List.replicate zeros.toNat '0' ++ tmp.reverse
  if d.flags.left then pre ++ digits ++ List.replicate pad ' '
  else if zero then pre ++ List.replicate pad '0' ++ digits
  else List.replicate pad ' ' ++ pre ++ digits

/-- The text of a conversion. -/
def text : CString :=
  match d.number with
  | some (u, base, upper, pre) => d.numberText u base upper pre
  | none =>
      if d.conv = 's' then d.fieldText d.strText
      else if d.conv = 'c' then d.fieldText [Char.ofNat (d.arg.word % 256)]
      else if d.IsFloat then d.fieldText (d.float D).2
      else if d.conv = '%' then ['%']
      else ['%', d.conv]

end Directive

section Text

variable {F : Type} (D : Doubles F)

/-- The text of an item. -/
def Item.text : Item F → CString
  | .char c => [c]
  | .conv d => d.text D

/-- The full output. -/
def formatted (fmt : CString) (args : ℕ → VaArg F) : CString := (items args fmt 0 0).flatMap (Item.text D)

end Text

namespace Buf

variable {b : Buf}

theorem emitTimes_eq (b : Buf) (n : ℤ) (c : Char) : b.emitTimes n c = b.emitStr (List.replicate n.toNat c) := by
  unfold emitTimes emitStr
  induction n.toNat generalizing b with
  | zero => rfl
  | succ k ih => rw [Function.iterate_succ_apply, List.replicate_succ, List.foldl_cons, ih]

theorem emitStr_append (b : Buf) (s t : CString) : b.emitStr (s ++ t) = (b.emitStr s).emitStr t :=
  List.foldl_append

@[simp] theorem emitStr_nil (b : Buf) : b.emitStr [] = b := rfl

/-- What fits of a text is written, and all of it is counted. -/
theorem emitStr_spec (b : Buf) (s : CString) : (b.emitStr s).pos = b.pos + s.length ∧ (b.emitStr s).cap = b.cap ∧
    ∀ i, (b.emitStr s).out i =
      if b.pos ≤ i ∧ i + 1 < b.cap then (s[i - b.pos]?).getD (b.out i) else b.out i := by
  induction s generalizing b with
  | nil => exact ⟨rfl, rfl, fun i => by simp⟩
  | cons c s ih =>
      obtain ⟨hpos, hcap, hout⟩ := ih (b.emit c)
      have hemit : ∀ i, (b.emit c).out i = if i = b.pos ∧ i + 1 < b.cap then c else b.out i := fun i => by
        unfold emit
        dsimp only
        split_ifs with h₁ h₂ h₂
        · rw [h₂.1, Function.update_self]
        · rw [Function.update_of_ne fun h => h₂ ⟨h, by omega⟩]
        · omega
        · rfl
      refine ⟨hpos.trans ?_, hcap, fun i => ?_⟩
      · rw [List.length_cons, show (b.emit c).pos = b.pos + 1 from rfl]
        omega
      · refine (hout i).trans ?_
        rw [hemit]
        change (if b.pos + 1 ≤ i ∧ i + 1 < b.cap then (s[i - (b.pos + 1)]?).getD _ else _) = _
        rcases Nat.lt_trichotomy i b.pos with hlt | rfl | hgt
        · rw [if_neg (by omega), if_neg (by omega), if_neg (by omega)]
        · rw [if_neg (by omega)]
          split_ifs <;> simp_all
        · rw [if_neg (show ¬ (i = b.pos ∧ _) by omega), show i - b.pos = i - (b.pos + 1) + 1 by omega,
            List.getElem?_cons_succ]
          split_ifs <;> first | rfl | omega

/-- The memory after a text and its terminator. -/
theorem finish_emitStr (out : ℕ → Char) (size : ℕ) (s : CString) :
    (Buf.emitStr ⟨out, 0, size⟩ s).finish = (i32 s.length, fun i =>
      if 0 < size ∧ i = min s.length (size - 1) then '\x00'
      else if i + 1 < size then (s[i]?).getD (out i) else out i) := by
  obtain ⟨hpos, hcap, hout⟩ := emitStr_spec ⟨out, 0, size⟩ s
  simp only [Nat.zero_add, Nat.zero_le, true_and, Nat.sub_zero] at hpos hcap hout
  have hend : (if s.length < size then s.length else size - 1) = min s.length (size - 1) := by
    split_ifs <;> omega
  rw [finish, hpos, hcap, hend]
  refine Prod.ext rfl (funext fun i => ?_)
  by_cases hsize : 0 < size
  · simp only [hsize, if_true, true_and]
    split_ifs with hi hfit
    · rw [hi, Function.update_self]
    · rw [Function.update_of_ne hi, hout, if_pos hfit]
    · rw [Function.update_of_ne hi, hout, if_neg hfit]
  · rw [if_neg hsize]
    dsimp only
    rw [hout, if_neg (by omega), if_neg (by omega)]

end Buf

theorem length_utoa {u base : ℕ} (hu : u < 2 ^ 64) (hbase : 8 ≤ base) (upper : Bool) :
    (utoa u base upper).length ≤ 22 := by
  unfold utoa
  split_ifs
  · decide
  · rw [List.length_map, Nat.digits_length_le_iff (by omega)]
    calc u < 2 ^ 64 := hu
      _ ≤ 8 ^ 22 := by decide
      _ ≤ base ^ 22 := Nat.pow_le_pow_left hbase 22

namespace Directive

variable {F : Type} {D : Doubles F} (d : Directive F)

theorem emitField_eq (b : Buf) (s : CString) : d.emitField b s = b.emitStr (d.fieldText s) := by
  unfold emitField fieldText
  cases d.flags.left <;> simp [Buf.emitTimes_eq, Buf.emitStr_append]

theorem emitNumber_eq (b : Buf) (u base : ℕ) (upper : Bool) (pre : CString) :
    d.emitNumber b u base upper pre = b.emitStr (d.numberText u base upper pre) := by
  unfold emitNumber numberText
  cases d.flags.left <;> cases d.flags.zero && !decide (0 ≤ d.prec) <;>
    simp [Buf.emitTimes_eq, Buf.emitStr_append]

/-- **A conversion** emits its text. -/
theorem run_eq (b : Buf) : d.run D b = b.emitStr (d.text D) := by
  unfold run text
  split
  · exact d.emitNumber_eq b _ _ _ _
  · split_ifs
    · exact d.emitField_eq b _
    · exact d.emitField_eq b _
    · exact d.emitField_eq b _
    · rfl
    · rfl

theorem number_lt {u base : ℕ} {upper : Bool} {pre : CString} (h : d.number = some (u, base, upper, pre)) :
    u < 2 ^ 64 ∧ 8 ≤ base := by
  have hlong : d.unsignedArg < 2 ^ 64 := by
    unfold unsignedArg
    split_ifs <;> omega
  have hint : d.signedArg.natAbs < 2 ^ 64 := by
    unfold signedArg i64 i32
    have := Int.bmod_lt (x := d.arg.word) (m := 2 ^ 64) (by decide)
    have := Int.le_bmod (x := d.arg.word) (m := 2 ^ 64) (by decide)
    have := Int.bmod_lt (x := d.arg.word) (m := 2 ^ 32) (by decide)
    have := Int.le_bmod (x := d.arg.word) (m := 2 ^ 32) (by decide)
    split_ifs <;> omega
  have hword : d.arg.word % 2 ^ 64 < 2 ^ 64 := Nat.mod_lt _ (by decide)
  unfold number at h
  split at h <;> simp only [Option.some.injEq, Prod.mk.injEq, reduceCtorEq] at h <;> obtain ⟨rfl, rfl, -⟩ := h
  all_goals exact ⟨by assumption, by decide⟩

theorem number_eq_none_of_isFloat (h : d.IsFloat) : d.number = none := by
  unfold number
  split <;> next hconv => first | rfl | simp [IsFloat, hconv] at h

/-- `tmp` is large enough for every integer. -/
theorem inBounds_of_not_isFloat (h : ¬ d.IsFloat) : d.InBounds D := by
  unfold InBounds stores
  split
  · next u base upper pre hnum =>
      have hlen := length_utoa (d.number_lt hnum).1 (d.number_lt hnum).2 upper
      simp only [List.mem_map, List.mem_range, forall_exists_index, and_imp, forall_apply_eq_imp_iff₂, Scratch.size]
      omega
  · rw [if_neg h]
    simp

end Directive

section Truncation

variable {F : Type} {D : Doubles F} {fmt : CString} {args : ℕ → VaArg F}

/-- The loop emits the full output, where no store is outside its buffer. -/
theorem foldlM_run (l : List (Item F)) (b : Buf) (h : ∀ d, .conv d ∈ l → d.InBounds D) :
    l.foldlM (Item.run D) b = some (b.emitStr (l.flatMap (Item.text D))) := by
  induction l generalizing b with
  | nil => rfl
  | cons item l ih =>
      rw [List.foldlM_cons, List.flatMap_cons, Buf.emitStr_append]
      cases item with
      | char c => exact ih (b.emit c) fun d hd => h d (List.mem_cons_of_mem _ hd)
      | conv d =>
          rw [Item.run, if_pos (h d List.mem_cons_self), d.run_eq]
          exact ih _ fun d hd => h d (List.mem_cons_of_mem _ hd)

/-- A store outside its buffer. -/
theorem foldlM_run_eq_none {l : List (Item F)} {d : Directive F} (hd : .conv d ∈ l) (h : ¬ d.InBounds D) (b : Buf) :
    l.foldlM (Item.run D) b = none := by
  induction l generalizing b with
  | nil => cases hd
  | cons item l ih =>
      rw [List.foldlM_cons]
      rcases List.mem_cons.1 hd with rfl | hd
      · rw [Item.run, if_neg h]
        rfl
      · cases hrun : Item.run D b item with
        | none => rfl
        | some b' => exact ih hd b'

theorem vsnprintf_eq (h : ∀ d, .conv d ∈ items args fmt 0 0 → d.InBounds D) (out : ℕ → Char) (size : ℕ) :
    vsnprintf D out size fmt args = some (i32 (formatted D fmt args).length, fun i =>
      if 0 < size ∧ i = min (formatted D fmt args).length (size - 1) then '\x00'
      else if i + 1 < size then ((formatted D fmt args)[i]?).getD (out i) else out i) := by
  rw [vsnprintf, foldlM_run _ _ h, Option.map_some, Buf.finish_emitStr]
  rfl

/-- **`vsnprintf` is a truncation of the full output:** for a format without conversions of `double`
and a full output of less than 2 ^ 31 characters, it returns the length of the full output for
every size, writes nothing at or behind `size`, and leaves what fits of the full output with
its terminator. -/
theorem vsnprintf_truncates (hfloat : ∀ d, .conv d ∈ items args fmt 0 0 → ¬ d.IsFloat)
    (hlen : (formatted D fmt args).length < 2 ^ 31) (out : ℕ → Char) (size : ℕ) :
    ∃ out', vsnprintf D out size fmt args = some (((formatted D fmt args).length : ℤ), out') ∧
      (∀ i ≥ size, out' i = out i) ∧
      (0 < size → (∀ i < min (formatted D fmt args).length (size - 1), (formatted D fmt args)[i]? = some (out' i)) ∧
        out' (min (formatted D fmt args).length (size - 1)) = '\x00') := by
  rw [vsnprintf_eq fun d hd => d.inBounds_of_not_isFloat (hfloat d hd), i32_of_lt hlen]
  refine ⟨_, rfl, fun i hi => ?_, fun hsize => ⟨fun i hi => ?_, if_pos ⟨hsize, rfl⟩⟩⟩
  · rw [if_neg (by omega), if_neg (by omega)]
  · have hlt : i < (formatted D fmt args).length := by omega
    rw [if_neg (by omega), if_pos (by omega), List.getElem?_eq_getElem hlt, Option.getD_some]

end Truncation

/-- Arithmetic without rounding. -/
def exactDoubles : Doubles ℚ where
  isNan _ := false
  lt x y := decide (x < y)
  le x y := decide (x ≤ y)
  neg x := -x
  add x y := x + y
  sub x y := x - y
  mul x y := x * y
  div x y := x / y
  ofInt n := n
  half := 1 / 2
  huge := 10 ^ 308
  toInt x := if x < 0 then ⌈x⌉ else ⌊x⌋
  scaled v hv := by
    have hiter : ∀ n, (fun v : ℚ => v / ((10 : ℤ) : ℚ))^[n] v = v / 10 ^ n := fun n => by
      induction n with
      | zero => simp
      | succ n ih =>
          rw [Function.iterate_succ_apply', ih, pow_succ]
          push_cast
          rw [div_div]
    refine ⟨308, ?_⟩
    rw [hiter]
    simp only [decide_eq_false_iff_not, not_lt, not_le] at hv ⊢
    calc v / 10 ^ 308 ≤ 1 := div_le_one_of_le₀ hv (by positivity)
      _ < ((10 : ℤ) : ℚ) := by norm_num

/-- The hypotheses of `vsnprintf_truncates` are satisfiable: `snprintf(out, 3, "%+d", 42)`. -/
theorem vsnprintf_truncates_plus : ∃ out', vsnprintf exactDoubles (fun _ => ' ') 3 ['%', '+', 'd'] (fun _ => ⟨42, [], 0⟩) =
    some (3, out') ∧ out' 2 = '\x00' := by
  have htext : formatted exactDoubles ['%', '+', 'd'] (fun _ => ⟨42, [], 0⟩) = ['+', '4', '2'] := by decide +kernel
  have hfloat : ∀ d, .conv d ∈ items (fun _ => ⟨42, [], (0 : ℚ)⟩) ['%', '+', 'd'] 0 0 → ¬ d.IsFloat := by
    intro d hd
    cases List.mem_singleton.1 hd
    decide
  obtain ⟨out', h, -, hin⟩ := vsnprintf_truncates hfloat (by rw [htext]; decide) (fun _ => ' ') 3
  rw [htext] at h hin
  exact ⟨out', h, (hin (by decide)).2⟩

/-! ### The scratch buffers -/

namespace Doubles

variable {F : Type} (D : Doubles F)

/-- The characters that `dtoa` stores behind the sign, for the decimal exponent `exp` that is `exp'`
after rounding. -/
def storeCount (conv : Char) (prec exp exp' : ℤ) : ℕ :=
  if useExp conv prec exp then
    1 + (if 1 < digitCount conv prec then (digitCount conv prec).toNat else 0) + 2 +
      if exp'.natAbs < 10 then 2 else (Nat.digits 10 exp'.natAbs).length
  else max 1 (exp' + 1).toNat + if 0 < afterDot conv prec exp' then 1 + (afterDot conv prec exp').toNat else 0

/-- What `dtoa` stores fits into `fbuf`. -/
def Fits (v : F) (conv : Char) (prec : ℤ) : Prop :=
  ∀ hv : D.lt D.huge (if D.lt v (D.ofInt 0) then D.neg v else v) = false, D.isNan v = false →
    let (v', exp) := D.decompose _ hv
    (if D.lt v (D.ofInt 0) then 1 else 0) + storeCount conv prec exp (D.rounded conv prec v' exp).2 ≤ 64

variable {D}

theorem length_expDigits (n : ℕ) (v : F) : (D.expDigits n v).length = n := by
  induction n generalizing v with
  | zero => rfl
  | succ n ih => rw [expDigits, List.length_cons, ih]

theorem length_plainDigits (n : ℕ) (v : F) : (D.plainDigits n v).1.length = n := by
  induction n generalizing v with
  | zero => rfl
  | succ n ih => rw [plainDigits, List.length_cons, ih]

theorem length_expForm (digits : ℤ) (v : F) (exp : ℤ) : (D.expForm digits v exp).length =
    1 + (if 1 < digits then digits.toNat else 0) + 2 +
      if exp.natAbs < 10 then 2 else (Nat.digits 10 exp.natAbs).length := by
  have hutoa : (utoa exp.natAbs 10 false).length = if exp.natAbs < 10 then 1 else (Nat.digits 10 exp.natAbs).length := by
    unfold utoa
    split_ifs with hzero hlt hlt
    · rfl
    · omega
    · rw [List.length_map, Nat.digits_of_lt 10 _ hzero hlt, List.length_singleton]
    · exact List.length_map _
  simp only [expForm, List.length_append, List.length_cons, List.length_nil, length_expDigits, List.length_reverse, hutoa]
  split_ifs <;> simp only [List.length_cons, List.length_nil] <;> omega

theorem length_plainForm (conv : Char) (prec : ℤ) (v : F) (exp : ℤ) : (D.plainForm conv prec v exp).length =
    max 1 (exp + 1).toNat + if 0 < afterDot conv prec exp then 1 + (afterDot conv prec exp).toNat else 0 := by
  have hwhole : (if exp < 0 then (['0'], v) else D.plainDigits (exp + 1).toNat v).1.length = max 1 (exp + 1).toNat := by
    split_ifs
    · rw [show (exp + 1).toNat = 0 by omega]
      rfl
    · rw [length_plainDigits]
      omega
  unfold plainForm
  dsimp only
  by_cases hafter : 0 < afterDot conv prec exp
  · rw [if_pos hafter, if_pos hafter]
    simp only [List.length_append, List.length_cons, List.length_replicate, length_plainDigits, hwhole]
    omega
  · rw [if_neg hafter, if_neg hafter]
    exact hwhole

/-- `dtoa` stays inside `fbuf` exactly where its text fits. -/
theorem dtoa_fits_iff (v : F) (conv : Char) {prec : ℤ} (hprec : 0 ≤ prec) :
    (D.dtoa v conv prec).1.length ≤ 64 ↔ D.Fits v conv prec := by
  unfold dtoa Fits
  simp only [if_neg (Int.not_lt.2 hprec)]
  cases hnan : D.isNan v with
  | true => simp
  | false =>
      simp only [Bool.false_eq_true, if_false, forall_const]
      have hsplit : (if D.lt v (D.ofInt 0) then (['-'], D.neg v) else ([], v)) =
          ((if D.lt v (D.ofInt 0) then ['-'] else []), if D.lt v (D.ofInt 0) then D.neg v else v) := by
        split_ifs <;> rfl
      have hsign : (if D.lt v (D.ofInt 0) then ['-'] else []).length = if D.lt v (D.ofInt 0) then 1 else 0 := by
        split_ifs <;> rfl
      rw [hsplit, ← hsign]
      dsimp only
      generalize (if D.lt v (D.ofInt 0) then ['-'] else []) = sign at hsign
      generalize (if D.lt v (D.ofInt 0) then D.neg v else v) = w
      have hsign' : sign.length ≤ 1 := by
        rw [hsign]
        split_ifs <;> omega
      by_cases hv : D.lt D.huge w = true
      · rw [dif_pos hv]
        refine iff_of_true ?_ fun h => absurd hv (by simp [h])
        rw [List.length_append]
        exact (Nat.add_le_add_right hsign' 3).trans (by decide)
      · rw [dif_neg hv]
        have hv' : D.lt D.huge w = false := by simpa using hv
        refine Iff.trans ?_ (forall_prop_of_true hv').symm
        by_cases huse : useExp conv prec (D.decompose w hv').2 = true
        · rw [if_pos huse, storeCount, if_pos huse, List.length_append, length_expForm]
        · rw [if_neg huse, storeCount, if_neg huse, List.length_append, length_plainForm]

end Doubles

namespace Directive

variable {F : Type} {D : Doubles F} (d : Directive F)

variable (D) in
/-- What a conversion of a `double` stores fits into `fbuf`. -/
def FloatFits : Prop := d.IsFloat → D.Fits d.arg.dbl d.conv.toLower (if 0 ≤ d.prec then d.prec else 6)

theorem inBounds_iff : d.InBounds D ↔ d.FloatFits D := by
  unfold FloatFits
  by_cases hfloat : d.IsFloat
  · have hprec : 0 ≤ if 0 ≤ d.prec then d.prec else 6 := by
      split_ifs <;> omega
    rw [forall_prop_of_true hfloat, ← Doubles.dtoa_fits_iff _ _ hprec, InBounds, stores,
      d.number_eq_none_of_isFloat hfloat, if_pos hfloat]
    simp only [List.mem_map, List.mem_range, forall_exists_index, and_imp, forall_apply_eq_imp_iff₂, Scratch.size]
    exact ⟨fun h => Nat.le_of_not_lt fun hlt => absurd (h 64 hlt) (by decide), fun h i hi => hi.trans_le h⟩
  · exact iff_of_true (d.inBounds_of_not_isFloat hfloat) fun h => absurd h hfloat

end Directive

/-- **The scratch buffers** are large enough exactly where each conversion of a `double` stores at most
64 characters. -/
theorem scratch_inBounds_iff {F : Type} (D : Doubles F) (fmt : CString) (args : ℕ → VaArg F) :
    (∀ d, .conv d ∈ items args fmt 0 0 → ∀ s ∈ d.stores D, s.2 < s.1.size) ↔
      ∀ d, .conv d ∈ items args fmt 0 0 → d.FloatFits D :=
  forall₂_congr fun d _ => d.inBounds_iff

/-- **A long precision runs over `fbuf`:** `%.100f` of 0.0 stores 102 characters. -/
theorem fbuf_overrun : ∃ d, .conv d ∈ items (fun _ => ⟨0, [], (0 : ℚ)⟩) "%.100f".toList 0 0 ∧
    ∃ s ∈ d.stores exactDoubles, s = (.fbuf, 101) ∧ ¬ s.2 < s.1.size := by
  refine ⟨⟨⟨false, false, false, false, false⟩, 0, 100, 0, 'f', ⟨0, [], 0⟩⟩, List.mem_singleton.2 (by rfl),
    (.fbuf, 101), ?_, rfl, by decide⟩
  decide +kernel

end LighthOS
