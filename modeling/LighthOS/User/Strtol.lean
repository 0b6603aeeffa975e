/-
# Reading integers

`strtol`, `strtoll` and `strtoull` of `user/libc/strtod.c`, with `isspace` and `tolower` of
`user/libc/ctype.c`.  A pointer into the string is the rest of the string, and `long` and
`long long` wrap around at 64 bits.

The grammar of C is `Numeral`: blanks, a sign, and a body that depends on the base (`Body`).
A prefix is skipped before it is known whether a digit follows it.  Where none does, the zero
of the prefix is a numeral by itself, but it is given back with the rest
(`strtol_grammar_iff`).

What `vsnprintf` prints for a number of 64 bits is read as that number (`strtoll_vsnprintf`).
-/

import LighthOS.User.Printf

namespace LighthOS

/-! ### The functions -/

/-- `isspace`. -/
def isspace (c : Char) : Bool := c == ' ' || (9 ≤ c.toNat && c.toNat ≤ 13)

/-- `tolower`. -/
def tolower (c : ℕ) : ℕ := if 65 ≤ c ∧ c ≤ 90 then c + 32 else c

/-- `d` of the loop: the value of a digit. -/
def digitValue (c : Char) : Option ℕ :=
  let c := tolower c.toNat
  if 48 ≤ c ∧ c ≤ 57 then some (c - 48) else if 97 ≤ c ∧ c ≤ 122 then some (c - 97 + 10) else none

/-- The sign, and what follows it. -/
def readSign : CString → ℤ × CString
  | '+' :: p => (1, p)
  | '-' :: p => (-1, p)
  | p => (1, p)

/-- `0x` or `0X`. -/
def hasHexPrefix (p : CString) : Bool := p.head? == some '0' && (p[1]? == some 'x' || p[1]? == some 'X')

/-- The base, and what follows the prefix. -/
def readPrefix (base : ℕ) (p : CString) : ℕ × CString :=
  if (base = 0 ∨ base = 16) ∧ hasHexPrefix p then (16, p.drop 2)
  else if base = 0 ∧ p.head? = some '0' then (8, p.drop 1)
  else if base = 0 then (10, p)
  else (base, p)

/-- The loop over the digits. -/
def readDigits (base : ℕ) : ℤ → CString → ℤ × CString
  | v, [] => (v, [])
  | v, c :: p =>
      match digitValue c with
      | none => (v, c :: p)
      | some d => if base ≤ d then (v, c :: p) else readDigits base (i64 (i64 (v * base) + d)) p

/-- The value and `*endp`, for a result of 64 bits. -/
def strtoNum (s : CString) (base : ℕ) : ℤ × CString :=
  let (sign, p) := readSign (s.dropWhile isspace)
  let (base, p) := readPrefix base p
  let (v, q) := readDigits base 0 p
  (i64 (sign * v), if q.length < p.length then q else s)

/-- `strtol`. -/
def strtol (s : CString) (base : ℕ) : ℤ × CString := strtoNum s base

/-- `strtoll`. -/
def strtoll (s : CString) (base : ℕ) : ℤ × CString := strtoNum s base

/-- `strtoull`. -/
def strtoull (s : CString) (base : ℕ) : ℤ × CString := ((strtoll s base).1 % 2 ^ 64, (strtoll s base).2)

/-! ### The grammar -/

/-- A digit that is valid in the base. -/
def isDigitOf (base : ℕ) (c : Char) : Bool := (digitValue c).any (· < base)

/-- One or more digits. -/
def IsDigits (base : ℕ) (ds : CString) : Prop := ds ≠ [] ∧ ∀ c ∈ ds, isDigitOf base c = true

/-- The number that digits stand for. -/
def numVal (base : ℕ) (ds : CString) : ℕ := ds.foldl (fun n c => n * base + (digitValue c).getD 0) 0

/-- A numeral without its sign, and its value.  Base 0 stands for the constants of C. -/
inductive Body (base : ℕ) : CString → ℕ → Prop
  | plain {ds : CString} (hbase : base ≠ 0) (hds : IsDigits base ds) : Body base ds (numVal base ds)
  | hex {x : Char} {ds : CString} (hbase : base = 0 ∨ base = 16) (hx : x = 'x' ∨ x = 'X') (hds : IsDigits 16 ds) :
      Body base ('0' :: x :: ds) (numVal 16 ds)
  | octal {ds : CString} (hbase : base = 0) (hds : IsDigits 8 ('0' :: ds)) : Body base ('0' :: ds) (numVal 8 ds)
  | decimal {c : Char} {ds : CString} (hbase : base = 0) (hc : c ≠ '0') (hds : IsDigits 10 (c :: ds)) :
      Body base (c :: ds) (numVal 10 (c :: ds))

/-- A numeral with blanks and a sign before it, and its value. -/
inductive Numeral (base : ℕ) : CString → ℤ → Prop
  | unsigned {bl u : CString} {n : ℕ} (hbl : ∀ c ∈ bl, isspace c = true) (hu : Body base u n) :
      Numeral base (bl ++ u) n
  | plus {bl u : CString} {n : ℕ} (hbl : ∀ c ∈ bl, isspace c = true) (hu : Body base u n) :
      Numeral base (bl ++ '+' :: u) n
  | minus {bl u : CString} {n : ℕ} (hbl : ∀ c ∈ bl, isspace c = true) (hu : Body base u n) :
      Numeral base (bl ++ '-' :: u) (-n)

/-- The value and the rest are those of the longest numeral that the text starts with; the value
is 0 and the rest is all of the text if it starts with none. -/
def Parses (base : ℕ) (s : CString) (r : ℤ × CString) : Prop :=
  (∃ t, s = t ++ r.2 ∧ Numeral base t r.1 ∧ ∀ t' v', t' <+: s → Numeral base t' v' → t'.length ≤ t.length) ∨
    (∀ t v, t <+: s → ¬ Numeral base t v) ∧ r = (0, s)

/-- The text behind the blanks and the sign. -/
def unsignedPart (s : CString) : CString := (readSign (s.dropWhile isspace)).2

/-- A prefix `0x` or `0` that the base permits, without a digit behind it. -/
def DanglingPrefix (base : ℕ) (p : CString) : Prop :=
  ((base = 0 ∨ base = 16) ∧ hasHexPrefix p = true ∧ ¬ ∃ c, p[2]? = some c ∧ isDigitOf 16 c) ∨
    (base = 0 ∧ hasHexPrefix p = false ∧ p.head? = some '0' ∧ ¬ ∃ c, p[1]? = some c ∧ isDigitOf 8 c)

/-! ### The loop over the digits -/

theorem readDigits_eq (base : ℕ) (v : ℤ) (p : CString) : readDigits base v p =
    ((p.takeWhile (isDigitOf base)).foldl (fun v c => i64 (i64 (v * base) + ((digitValue c).getD 0 : ℕ))) v,
      p.dropWhile (isDigitOf base)) := by
  induction p generalizing v with
  | nil => rfl
  | cons c p ih =>
      unfold readDigits
      cases hd : digitValue c with
      | none =>
          have hc : ¬ isDigitOf base c = true := by simp [isDigitOf, hd]
          rw [List.takeWhile_cons_of_neg hc, List.dropWhile_cons_of_neg hc]
          rfl
      | some d =>
          by_cases hlt : d < base
          · have hc : isDigitOf base c = true := by simp [isDigitOf, hd, hlt]
            rw [List.takeWhile_cons_of_pos hc, List.dropWhile_cons_of_pos hc]
            simp only [Nat.not_le.2 hlt, if_false, ih, List.foldl_cons, hd, Option.getD_some]
          · have hc : ¬ isDigitOf base c = true := by simp [isDigitOf, hd, hlt]
            rw [List.takeWhile_cons_of_neg hc, List.dropWhile_cons_of_neg hc]
            simp only [Nat.not_lt.1 hlt, if_true, List.foldl_nil]

/-- The digits are accumulated modulo 2 ^ 64. -/
theorem foldl_digits_modEq (base : ℕ) (ds : CString) (v : ℤ) (n : ℕ) (h : v ≡ n [ZMOD 2 ^ 64]) :
    ds.foldl (fun v c => i64 (i64 (v * base) + ((digitValue c).getD 0 : ℕ))) v ≡
      (ds.foldl (fun n c => n * base + (digitValue c).getD 0) n : ℕ) [ZMOD 2 ^ 64] := by
  induction ds generalizing v n with
  | nil => exact h
  | cons c ds ih =>
      refine ih _ _ ?_
      push_cast
      exact (i64_modEq _).trans (((i64_modEq _).trans (h.mul_right _)).add_right _)

theorem i64_sign_readDigits (base : ℕ) (sign : ℤ) (p : CString) :
    i64 (sign * (readDigits base 0 p).1) = i64 (sign * numVal base (p.takeWhile (isDigitOf base))) := by
  rw [readDigits_eq]
  exact i64_congr ((foldl_digits_modEq base _ 0 0 rfl).mul_left sign)

/-! ### Blanks and sign -/

variable {base : ℕ} {c : Char}

theorem digitValue_eq_some {d : ℕ} (h : digitValue c = some d) :
    48 ≤ c.toNat ∧ c.toNat ≤ 57 ∧ d = c.toNat - 48 ∨ 65 ≤ c.toNat ∧ c.toNat ≤ 122 ∧ 10 ≤ d := by
  unfold digitValue tolower at h
  simp only at h
  split_ifs at h <;> simp only [Option.some.injEq] at h <;> omega

theorem isDigitOf_range (h : isDigitOf base c = true) :
    48 ≤ c.toNat ∧ c.toNat ≤ 57 ∨ 65 ≤ c.toNat ∧ c.toNat ≤ 122 := by
  obtain ⟨d, hd, -⟩ := (Option.any_eq_true _ _).1 h
  have := digitValue_eq_some hd
  omega

theorem isspace_of_isDigitOf (h : isDigitOf base c = true) : isspace c = false := by
  have hrange := isDigitOf_range h
  have hblank : c ≠ ' ' := by
    rintro rfl
    exact absurd hrange (by decide)
  simp [isspace, hblank]
  omega

theorem readSign_of_isDigitOf (h : isDigitOf base c = true) (p : CString) :
    readSign (c :: p) = (1, c :: p) := by
  have hrange := isDigitOf_range h
  unfold readSign
  split
  · next heq =>
      cases heq
      exact absurd hrange (by decide)
  · next heq =>
      cases heq
      exact absurd hrange (by decide)
  · rfl

theorem IsDigits.cons {ds : CString} (h : IsDigits base ds) :
    ∃ c r, ds = c :: r ∧ isDigitOf base c = true := by
  obtain ⟨c, r, rfl⟩ := List.exists_cons_of_ne_nil h.1
  exact ⟨c, r, rfl, h.2 c List.mem_cons_self⟩

/-- A body starts with a digit. -/
theorem Body.cons {u : CString} {n : ℕ} (h : Body base u n) :
    ∃ c r b, u = c :: r ∧ isDigitOf b c = true := by
  cases h with
  | plain _ hds =>
      obtain ⟨c, r, rfl, hc⟩ := hds.cons
      exact ⟨c, r, _, rfl, hc⟩
  | hex => exact ⟨_, _, 16, rfl, by decide⟩
  | octal => exact ⟨_, _, 16, rfl, by decide⟩
  | decimal _ _ hds => exact ⟨_, _, 10, rfl, hds.2 _ List.mem_cons_self⟩

/-- The sign that `strtol` reads. -/
def signOf (s : CString) : ℤ := (readSign (s.dropWhile isspace)).1

section

variable {bl : CString} (hbl : ∀ c ∈ bl, isspace c = true)
include hbl

theorem dropWhile_blanks (hc : isspace c = false) (r : CString) : (bl ++ c :: r).dropWhile isspace = c :: r := by
  rw [List.dropWhile_append_of_pos hbl, List.dropWhile_cons_of_neg (by simp [hc])]

theorem readSign_unsigned (hc : isDigitOf base c = true) (r : CString) :
    readSign ((bl ++ c :: r).dropWhile isspace) = (1, c :: r) := by
  rw [dropWhile_blanks hbl (isspace_of_isDigitOf hc), readSign_of_isDigitOf hc]

theorem readSign_plus (r : CString) : readSign ((bl ++ '+' :: r).dropWhile isspace) = (1, r) := by
  rw [dropWhile_blanks hbl (by decide)]
  rfl

theorem readSign_minus (r : CString) : readSign ((bl ++ '-' :: r).dropWhile isspace) = (-1, r) := by
  rw [dropWhile_blanks hbl (by decide)]
  rfl

end

/-- Blanks and sign of a numeral that the text starts with are those that `strtol` reads. -/
theorem Numeral.body {s t : CString} {v : ℤ} (h : Numeral base t v) (ht : t <+: s) :
    ∃ u n, u <+: unsignedPart s ∧ Body base u n ∧ v = signOf s * n ∧
      t.length + (unsignedPart s).length = s.length + u.length := by
  obtain ⟨r, rfl⟩ := ht
  unfold unsignedPart signOf
  cases h with
  | @unsigned bl u n hbl hu =>
      obtain ⟨c, u, b, rfl, hc⟩ := hu.cons
      rw [List.append_assoc, List.cons_append, readSign_unsigned hbl hc]
      exact ⟨c :: u, n, List.prefix_append _ _, hu, (one_mul _).symm, by simp; omega⟩
  | @plus bl u n hbl hu =>
      rw [List.append_assoc, List.cons_append, readSign_plus hbl]
      exact ⟨u, n, List.prefix_append _ _, hu, (one_mul _).symm, by simp; omega⟩
  | @minus bl u n hbl hu =>
      rw [List.append_assoc, List.cons_append, readSign_minus hbl]
      exact ⟨u, n, List.prefix_append _ _, hu, (neg_one_mul _).symm, by simp; omega⟩

/-- A body behind blanks and sign makes a numeral. -/
theorem Body.numeral {s u r : CString} {n : ℕ} (h : Body base u n) (hs : unsignedPart s = u ++ r) :
    ∃ t, s = t ++ r ∧ Numeral base t (signOf s * n) := by
  have hbl : ∀ c ∈ s.takeWhile isspace, isspace c = true := fun c hc => List.mem_takeWhile_imp hc
  have hsplit : s = s.takeWhile isspace ++ s.dropWhile isspace := List.takeWhile_append_dropWhile.symm
  unfold unsignedPart at hs
  unfold signOf
  generalize s.takeWhile isspace = bl at hbl hsplit
  generalize s.dropWhile isspace = p at hs hsplit
  unfold readSign at hs ⊢
  split at hs <;> obtain rfl := hs
  · refine ⟨bl ++ '+' :: u, by simpa using hsplit, ?_⟩
    simpa using Numeral.plus hbl h
  · refine ⟨bl ++ '-' :: u, by simpa using hsplit, ?_⟩
    simpa using Numeral.minus hbl h
  · refine ⟨bl ++ u, by simpa using hsplit, ?_⟩
    simpa using Numeral.unsigned hbl h

/-! ### Prefix and digits -/

/-- What `readPrefix` finds. -/
inductive PrefixWay (base : ℕ) : CString → ℕ × CString → Prop
  | hex {x : Char} {r : CString} (hbase : base = 0 ∨ base = 16) (hx : x = 'x' ∨ x = 'X') :
      PrefixWay base ('0' :: x :: r) (16, r)
  | octal {r : CString} (hbase : base = 0) (hhex : hasHexPrefix ('0' :: r) = false) : PrefixWay base ('0' :: r) (8, r)
  | decimal {p : CString} (hbase : base = 0) (hzero : p.head? ≠ some '0') : PrefixWay base p (10, p)
  | plain {p : CString} (hbase : base ≠ 0) (hhex : ¬ (base = 16 ∧ hasHexPrefix p = true)) :
      PrefixWay base p (base, p)

theorem hasHexPrefix_iff (p : CString) :
    hasHexPrefix p = true ↔ ∃ x r, (x = 'x' ∨ x = 'X') ∧ p = '0' :: x :: r := by
  constructor
  · intro h
    match p, h with
    | c :: x :: r, h =>
        simp only [hasHexPrefix, List.head?_cons, List.getElem?_cons_succ, List.getElem?_cons_zero, Bool.and_eq_true,
          Bool.or_eq_true, beq_iff_eq, Option.some.injEq] at h
        exact ⟨x, r, h.2, by rw [h.1]⟩
    | [c], h => simp [hasHexPrefix] at h
    | [], h => simp [hasHexPrefix] at h
  · rintro ⟨x, r, hx | hx, rfl⟩ <;> simp [hasHexPrefix, hx]

theorem readPrefix_way (base : ℕ) (p : CString) : PrefixWay base p (readPrefix base p) := by
  unfold readPrefix
  split_ifs with hhex hoct hdec
  · obtain ⟨x, r, hx, rfl⟩ := (hasHexPrefix_iff p).1 hhex.2
    exact .hex hhex.1 hx
  · obtain ⟨hbase, hzero⟩ := hoct
    cases p with
    | nil => simp at hzero
    | cons c r =>
        obtain rfl : c = '0' := by simpa using hzero
        exact .octal hbase (Bool.eq_false_iff.2 fun h => hhex ⟨.inl hbase, h⟩)
  · exact .decimal hdec fun h => hoct ⟨hdec, h⟩
  · exact .plain hdec fun h => hhex ⟨.inr h.1, h.2⟩

theorem length_le_takeWhile {f : Char → Bool} {u p : CString} (hu : ∀ c ∈ u, f c = true) (hp : u <+: p) :
    u.length ≤ (p.takeWhile f).length := by
  obtain ⟨r, rfl⟩ := hp
  rw [List.takeWhile_append_of_pos hu, List.length_append]
  omega

/-- No digits behind something that is not a digit. -/
theorem digits_eq_nil {x : Char} {r ds : CString} (hds : ∀ c ∈ ds, isDigitOf base c = true)
    (hx : isDigitOf base x = false) (hp : ds <+: x :: r) : ds = [] := by
  cases ds with
  | nil => rfl
  | cons c ds =>
      obtain ⟨rfl, -⟩ := List.cons_prefix_cons.1 hp
      exact absurd (hds c List.mem_cons_self) (by simp [hx])

theorem isDigitOf_x {x : Char} (hx : x = 'x' ∨ x = 'X') (hbase : base ≤ 16) : isDigitOf base x = false := by
  have hval : digitValue x = some 33 := by rcases hx with rfl | rfl <;> decide
  simp only [isDigitOf, hval, Option.any_some, decide_eq_false_iff_not]
  omega

/-- A body that the text starts with is no longer than what `strtol` reads, or it is the zero of
a prefix. -/
theorem Body.length_le {base b : ℕ} {p q u : CString} {n : ℕ} (hway : PrefixWay base p (b, q)) (h : Body base u n)
    (hu : u <+: p) :
    (q.takeWhile (isDigitOf b) ≠ [] ∧ u.length + q.length ≤ p.length + (q.takeWhile (isDigitOf b)).length) ∨
      u.length ≤ 1 ∧ q.length < p.length := by
  have hle : ∀ {base : ℕ} {ds q : CString}, IsDigits base ds → ds <+: q →
      q.takeWhile (isDigitOf base) ≠ [] ∧ ds.length ≤ (q.takeWhile (isDigitOf base)).length := by
    intro base ds q hds hp
    have hlen := length_le_takeWhile hds.2 hp
    have hpos := List.length_pos_of_ne_nil hds.1
    exact ⟨List.ne_nil_of_length_pos (by omega), hlen⟩
  cases hway with
  | @hex x r hbase hx =>
      cases h with
      | plain hb hds =>
          obtain rfl := hbase.resolve_left hb
          obtain ⟨c, ds, rfl, -⟩ := hds.cons
          obtain ⟨rfl, hp⟩ := List.cons_prefix_cons.1 hu
          have := digits_eq_nil (fun c hc => hds.2 c (List.mem_cons_of_mem _ hc)) (isDigitOf_x hx le_rfl) hp
          exact .inr (by simp [this])
      | hex _ _ hds =>
          obtain ⟨-, hp⟩ := List.cons_prefix_cons.1 hu
          obtain ⟨-, hp⟩ := List.cons_prefix_cons.1 hp
          obtain ⟨hne, hlen⟩ := hle hds hp
          exact .inl ⟨hne, by simp only [List.length_cons]; omega⟩
      | octal _ hds =>
          obtain ⟨-, hp⟩ := List.cons_prefix_cons.1 hu
          have := digits_eq_nil (fun c hc => hds.2 c (List.mem_cons_of_mem _ hc)) (isDigitOf_x hx (by decide)) hp
          exact .inr (by simp [this])
      | decimal _ hc _ => exact absurd (List.cons_prefix_cons.1 hu).1 hc
  | octal hbase hhex =>
      cases h with
      | plain hb _ => exact absurd hbase hb
      | @hex x ds _ hx _ =>
          obtain ⟨-, r', rfl⟩ := List.cons_prefix_cons.1 hu
          have htrue := (hasHexPrefix_iff ('0' :: (x :: ds ++ r'))).2 ⟨_, _, hx, rfl⟩
          exact absurd (hhex.symm.trans htrue) Bool.false_ne_true
      | @octal ds _ hds =>
          obtain ⟨-, hp⟩ := List.cons_prefix_cons.1 hu
          by_cases hnil : ds = []
          · exact .inr (by simp [hnil])
          · obtain ⟨hne, hlen⟩ := hle ⟨hnil, fun c hc => hds.2 c (List.mem_cons_of_mem _ hc)⟩ hp
            exact .inl ⟨hne, by simp only [List.length_cons]; omega⟩
      | decimal _ hc _ => exact absurd (List.cons_prefix_cons.1 hu).1 hc
  | decimal hbase hzero =>
      obtain ⟨r', rfl⟩ := hu
      cases h with
      | plain hb _ => exact absurd hbase hb
      | hex => exact absurd rfl hzero
      | octal => exact absurd rfl hzero
      | decimal _ _ hds =>
          obtain ⟨hne, hlen⟩ := hle hds (List.prefix_append _ _)
          exact .inl ⟨hne, by omega⟩
  | plain hbase hhex =>
      cases h with
      | plain _ hds =>
          obtain ⟨hne, hlen⟩ := hle hds hu
          exact .inl ⟨hne, by omega⟩
      | hex hb hx _ =>
          obtain ⟨r', rfl⟩ := hu
          exact absurd ⟨hb.resolve_left hbase, (hasHexPrefix_iff _).2 ⟨_, _, hx, rfl⟩⟩ hhex
      | octal hb _ => exact absurd hb hbase
      | decimal hb _ _ => exact absurd hb hbase

theorem takeWhile_isDigits {q : CString} (h : q.takeWhile (isDigitOf base) ≠ []) :
    IsDigits base (q.takeWhile (isDigitOf base)) := ⟨h, fun _ hc => List.mem_takeWhile_imp hc⟩

/-- The digits that `strtol` reads make a body, with the prefix. -/
theorem PrefixWay.body {base b : ℕ} {p q : CString} (hway : PrefixWay base p (b, q))
    (h : q.takeWhile (isDigitOf b) ≠ []) :
    ∃ u, p = u ++ q.dropWhile (isDigitOf b) ∧ Body base u (numVal b (q.takeWhile (isDigitOf b))) := by
  have hds := takeWhile_isDigits h
  have hq : q = q.takeWhile (isDigitOf b) ++ q.dropWhile (isDigitOf b) := List.takeWhile_append_dropWhile.symm
  generalize q.takeWhile (isDigitOf b) = ds at hds hq
  generalize q.dropWhile (isDigitOf b) = rest at hq
  subst hq
  cases hway with
  | hex hbase hx => exact ⟨_, rfl, .hex hbase hx hds⟩
  | octal hbase _ =>
      refine ⟨_, rfl, .octal hbase ⟨by simp, fun c hc => ?_⟩⟩
      rcases List.mem_cons.1 hc with rfl | hc
      · decide
      · exact hds.2 c hc
  | decimal hbase hzero =>
      obtain ⟨c, r, rfl, -⟩ := hds.cons
      exact ⟨_, rfl, .decimal hbase (fun hc => hzero (by simp [hc])) hds⟩
  | plain hbase _ => exact ⟨_, rfl, .plain hbase hds⟩

theorem takeWhile_eq_nil_iff {q : CString} :
    q.takeWhile (isDigitOf base) = [] ↔ ¬ ∃ c, q.head? = some c ∧ isDigitOf base c = true := by
  cases q with
  | nil => simp
  | cons c q => by_cases hc : isDigitOf base c = true <;> simp [hc]

/-- A prefix without a digit is one that `strtol` skips. -/
theorem PrefixWay.dangling_iff {base b : ℕ} {p q : CString} (hway : PrefixWay base p (b, q)) :
    DanglingPrefix base p ↔ q.length < p.length ∧ q.takeWhile (isDigitOf b) = [] := by
  rw [takeWhile_eq_nil_iff]
  unfold DanglingPrefix
  cases hway with
  | @hex x _ hbase hx =>
      have hhex : hasHexPrefix ('0' :: x :: q) = true := (hasHexPrefix_iff _).2 ⟨_, _, hx, rfl⟩
      have hlen : q.length < q.length + 1 + 1 := by omega
      simp [hbase, hhex, hlen, List.head?_eq_getElem?]
  | octal hbase hhex =>
      simp [hbase, hhex, List.getElem?_cons_succ, List.head?_eq_getElem?]
  | decimal hbase hzero =>
      have hhex : hasHexPrefix p ≠ true := fun h => by
        obtain ⟨x, r, -, rfl⟩ := (hasHexPrefix_iff p).1 h
        exact hzero rfl
      simp [hhex, hzero]
  | plain hbase hhex =>
      simp only [hbase, false_or, false_and, or_false, lt_self_iff_false, iff_false]
      exact fun h => hhex ⟨h.1, h.2.1⟩

/-- The zero of such a prefix is a body. -/
theorem DanglingPrefix.body {p : CString} (h : DanglingPrefix base p) :
    ∃ r, p = '0' :: r ∧ Body base ['0'] 0 := by
  have hoct : IsDigits 8 ['0'] := ⟨by simp, List.forall_mem_singleton.2 (by decide)⟩
  have hhex : IsDigits 16 ['0'] := ⟨by simp, List.forall_mem_singleton.2 (by decide)⟩
  rcases h with ⟨hbase, hp, -⟩ | ⟨hbase, -, hp, -⟩
  · obtain ⟨x, r, -, rfl⟩ := (hasHexPrefix_iff p).1 hp
    refine ⟨_, rfl, ?_⟩
    rcases hbase with rfl | rfl
    · exact .octal rfl hoct
    · exact .plain (by decide) hhex
  · cases p with
    | nil => simp at hp
    | cons c r =>
        obtain rfl : c = '0' := by simpa using hp
        exact ⟨r, rfl, .octal hbase hoct⟩

/-! ### The longest numeral -/

theorem strtoNum_eq (s : CString) (base : ℕ) {b : ℕ} {q : CString} (h : readPrefix base (unsignedPart s) = (b, q)) :
    strtoNum s base = (i64 (signOf s * numVal b (q.takeWhile (isDigitOf b))),
      if q.takeWhile (isDigitOf b) = [] then s else q.dropWhile (isDigitOf b)) := by
  have hsign : readSign (s.dropWhile isspace) = (signOf s, unsignedPart s) := rfl
  have hlen := congrArg List.length (List.takeWhile_append_dropWhile (p := isDigitOf b) (l := q))
  have hiff : (q.dropWhile (isDigitOf b)).length < q.length ↔ ¬ q.takeWhile (isDigitOf b) = [] := by
    rw [← List.length_eq_zero_iff, ← hlen, List.length_append]
    omega
  simp only [strtoNum, hsign, h, i64_sign_readDigits]
  rw [readDigits_eq]
  simp only [hiff, ite_not]

theorem Numeral.ne_nil {t : CString} {v : ℤ} (h : Numeral base t v) : t ≠ [] := by
  cases h with
  | unsigned _ hu =>
      obtain ⟨c, r, -, rfl, -⟩ := hu.cons
      simp
  | plus => simp
  | minus => simp

/-- Where digits are read, they end the longest numeral. -/
theorem parses_of_digits {s : CString} {base b : ℕ} {q : CString} (hway : PrefixWay base (unsignedPart s) (b, q))
    (h : q.takeWhile (isDigitOf b) ≠ []) :
    Parses base s (signOf s * numVal b (q.takeWhile (isDigitOf b)), q.dropWhile (isDigitOf b)) := by
  obtain ⟨u, hu, hbody⟩ := hway.body h
  obtain ⟨t, hs, ht⟩ := hbody.numeral hu
  refine .inl ⟨t, hs, ht, fun t' v' ht' hv' => ?_⟩
  obtain ⟨u', n', hu', hbody', -, hlen⟩ := hv'.body ht'
  obtain ⟨c, r, -, rfl, -⟩ := hbody.cons
  have hq := congrArg List.length (List.takeWhile_append_dropWhile (p := isDigitOf b) (l := q))
  have hs := congrArg List.length hs
  have hu := congrArg List.length hu
  have hle := hbody'.length_le hway hu'
  simp only [List.length_append, List.length_cons] at hq hs hu hle
  omega

/-- Where no digits are read, there is a numeral only if the prefix is one. -/
theorem parses_nothing_iff {s : CString} {base b : ℕ} {q : CString} (hway : PrefixWay base (unsignedPart s) (b, q))
    (h : q.takeWhile (isDigitOf b) = []) : Parses base s (0, s) ↔ ¬ DanglingPrefix base (unsignedPart s) := by
  constructor
  · rintro (⟨t, hs, ht, -⟩ | ⟨hnone, -⟩) hdangling
    · exact ht.ne_nil (List.append_left_eq_self.1 hs.symm)
    · obtain ⟨r, hp, hbody⟩ := hdangling.body
      obtain ⟨t, hs, ht⟩ := hbody.numeral (u := ['0']) (r := r) hp
      exact hnone t _ ⟨r, hs.symm⟩ ht
  · intro hdangling
    rw [hway.dangling_iff] at hdangling
    refine .inr ⟨fun t v ht hv => ?_, rfl⟩
    obtain ⟨u, n, hu, hbody, -, -⟩ := hv.body ht
    rcases hbody.length_le hway hu with ⟨hne, -⟩ | ⟨-, hlt⟩
    · exact hne h
    · exact hdangling ⟨hlt, h⟩

/-- **`strtol` and `strtoll` implement the grammar of C, but for a prefix without digits:** for
every text whose numeral fits into 64 bits and every base, value and `*endp` are those of the
longest numeral exactly if no prefix that the base permits stands without a digit behind it. -/
theorem strtol_grammar_iff (s : CString) (base : ℕ)
    (hrep : ∀ r, Parses base s r → -2 ^ 63 ≤ r.1 ∧ r.1 < 2 ^ 63) :
    (Parses base s (strtol s base) ∧ Parses base s (strtoll s base)) ↔ ¬ DanglingPrefix base (unsignedPart s) := by
  have hboth : (Parses base s (strtol s base) ∧ Parses base s (strtoll s base)) ↔ Parses base s (strtoNum s base) :=
    and_self_iff
  obtain ⟨⟨b, q⟩, hprefix⟩ : ∃ bq, readPrefix base (unsignedPart s) = bq := ⟨_, rfl⟩
  have hway : PrefixWay base (unsignedPart s) (b, q) := hprefix ▸ readPrefix_way base (unsignedPart s)
  rw [hboth, strtoNum_eq s base hprefix]
  by_cases hnil : q.takeWhile (isDigitOf b) = []
  · rw [hnil, if_pos rfl]
    have hzero : i64 (signOf s * (numVal b [] : ℕ)) = 0 := by simp [numVal, i64]
    rw [hzero]
    exact parses_nothing_iff hway hnil
  · have hparses := parses_of_digits hway hnil
    obtain ⟨hlo, hhi⟩ := hrep _ hparses
    rw [if_neg hnil, i64_eq_self hlo hhi, hway.dangling_iff]
    exact iff_of_true hparses fun h => hnil h.2

/-- The hypotheses of `strtol_grammar_iff` are satisfiable: the text `-7`. -/
theorem strtol_grammar_minus_seven : Parses 10 ['-', '7'] (strtol ['-', '7'] 10) := by
  refine ((strtol_grammar_iff ['-', '7'] 10 ?_).2 ?_).1
  · rintro ⟨v, rest⟩ (⟨t, hs, ht, -⟩ | ⟨-, hr⟩)
    · obtain ⟨u, n, hu, hbody, hv, -⟩ := ht.body ⟨rest, hs.symm⟩
      obtain ⟨c, r, -, rfl, -⟩ := hbody.cons
      obtain ⟨rfl, hr⟩ := List.cons_prefix_cons.1 hu
      obtain rfl := List.prefix_nil.1 hr
      cases hbody with
      | plain =>
          have hv : v = -7 := hv
          exact ⟨by simp [hv], by simp [hv]⟩
      | decimal hbase => exact absurd hbase (by decide)
    · cases hr
      decide
  · unfold DanglingPrefix
    decide

/-- `strtol("0", &endp, 0)` leaves `endp` at the zero, which is the numeral. -/
theorem strtol_lone_zero :
    ¬ Parses 0 ['0'] (strtol ['0'] 0) ∧ strtol ['0'] 0 = (0, ['0']) ∧ Parses 0 ['0'] (0, []) := by
  have hnum : Numeral 0 ['0'] ((0 : ℕ) : ℤ) :=
    @Numeral.unsigned 0 [] _ _ (by simp) (@Body.octal 0 [] rfl ⟨by simp, List.forall_mem_singleton.2 (by decide)⟩)
  refine ⟨?_, by decide, .inl ⟨['0'], rfl, hnum, fun t' _ ht' _ => ht'.length_le⟩⟩
  rintro (⟨t, hs, ht, -⟩ | ⟨hnone, -⟩)
  · exact ht.ne_nil (List.append_left_eq_self.1 hs.symm)
  · exact hnone _ _ (List.prefix_refl _) hnum

/-! ### Print and read -/

/-- Digits behind blanks and a sign are read to the end. -/
theorem strtoNum_of_digits {s ds : CString} (hbase : base ≠ 0) (hle : base ≤ 16) (hds : IsDigits base ds)
    (hs : unsignedPart s = ds) : strtoNum s base = (i64 (signOf s * numVal base ds), []) := by
  have hhex : ¬ hasHexPrefix ds = true := fun h => by
    obtain ⟨x, r, hx, rfl⟩ := (hasHexPrefix_iff ds).1 h
    exact absurd (hds.2 x (by simp)) (by simp [isDigitOf_x hx hle])
  have hprefix : readPrefix base (unsignedPart s) = (base, ds) := by simp [hs, readPrefix, hhex, hbase]
  have htake : ds.takeWhile (isDigitOf base) = ds := List.takeWhile_eq_self_iff.2 hds.2
  have hdrop : ds.dropWhile (isDigitOf base) = [] := List.dropWhile_eq_nil_iff.2 hds.2
  rw [strtoNum_eq s base hprefix, htake, hdrop, if_neg hds.1]

theorem digitValue_digitChar (upper : Bool) {k : ℕ} (hk : k < 16) : digitValue (digitChar upper k) = some k := by
  cases upper <;> decide +revert

theorem numVal_zeros (base k : ℕ) (ds : CString) : numVal base (List.replicate k '0' ++ ds) = numVal base ds := by
  unfold numVal
  induction k with
  | zero => rfl
  | succ k ih =>
      rw [List.replicate_succ, List.cons_append, List.foldl_cons]
      simpa [show digitValue '0' = some 0 by decide] using ih

theorem numVal_digits (base : ℕ) (upper : Bool) (L : List ℕ) (hL : ∀ k ∈ L, k < 16) :
    numVal base (L.map (digitChar upper)).reverse = Nat.ofDigits base L := by
  induction L with
  | nil => rfl
  | cons k L ih =>
      have hk := digitValue_digitChar upper (hL k List.mem_cons_self)
      have ih := ih fun k hk => hL k (List.mem_cons_of_mem _ hk)
      unfold numVal at ih ⊢
      rw [List.map_cons, List.reverse_cons, List.foldl_append, ih, Nat.ofDigits_cons]
      simp only [List.foldl_cons, List.foldl_nil, hk, Option.getD_some]
      ring

/-- What `utoa` stores is digits, and stands for the number. -/
theorem utoa_spec (u : ℕ) (hbase : 2 ≤ base) (hle : base ≤ 16) (upper : Bool) :
    IsDigits base (utoa u base upper).reverse ∧ numVal base (utoa u base upper).reverse = u := by
  unfold utoa
  split_ifs with hu
  · have hzero : digitValue '0' = some 0 := by decide
    refine ⟨⟨by simp, fun c hc => ?_⟩, by simp [numVal, hzero, hu]⟩
    obtain rfl : c = '0' := by simpa using hc
    simp only [isDigitOf, hzero, Option.any_some, decide_eq_true_eq]
    omega
  · have hlt : ∀ k ∈ Nat.digits base u, k < base := fun k hk => Nat.digits_lt_base (by omega) hk
    refine ⟨⟨?_, fun c hc => ?_⟩, ?_⟩
    · simpa using Nat.digits_ne_nil_iff_ne_zero.2 hu
    · obtain ⟨k, hk, rfl⟩ := List.mem_map.1 (List.mem_reverse.1 hc)
      have := hlt k hk
      simp only [isDigitOf, digitValue_digitChar upper (by omega : k < 16), Option.any_some, decide_eq_true_eq]
      exact this
    · rw [numVal_digits base upper _ fun k hk => by have := hlt k hk; omega, Nat.ofDigits_digits]

theorem IsDigits.zeros {base k : ℕ} (hbase : base ≠ 0) {ds : CString} (h : IsDigits base ds) :
    IsDigits base (List.replicate k '0' ++ ds) := by
  refine ⟨by simp [h.1], fun c hc => ?_⟩
  rcases List.mem_append.1 hc with hc | hc
  · rw [List.eq_of_mem_replicate hc]
    simp only [isDigitOf, show digitValue '0' = some 0 by decide, Option.any_some, decide_eq_true_eq]
    omega
  · exact h.2 c hc

/-- The text of an integer: blanks, the prefix, and digits that stand for the number. -/
theorem numberText_spec {F : Type} (d : Directive F) (hleft : d.flags.left = false) {u base : ℕ}
    (hbase : 2 ≤ base) (hle : base ≤ 16) (upper : Bool) (pre : CString) (hdigit : ¬ (d.prec = 0 ∧ u = 0)) :
    ∃ k ds, d.numberText u base upper pre = List.replicate k ' ' ++ pre ++ ds ∧ IsDigits base ds ∧
      numVal base ds = u := by
  obtain ⟨hds, hval⟩ := utoa_spec u hbase hle upper
  have hbase0 : base ≠ 0 := by omega
  simp only [Directive.numberText, hleft, if_neg hdigit, Bool.false_eq_true, if_false]
  generalize (if 0 ≤ d.prec ∧ ((utoa u base upper).length : ℤ) < d.prec then
    d.prec - ((utoa u base upper).length : ℤ) else 0) = zeros
  generalize (i32 (d.width - _)).toNat = pad
  split_ifs
  · refine ⟨0, List.replicate pad '0' ++ (List.replicate zeros.toNat '0' ++ (utoa u base upper).reverse), ?_,
      (hds.zeros hbase0).zeros hbase0, by rw [numVal_zeros, numVal_zeros, hval]⟩
    rw [List.replicate_zero, List.nil_append, List.append_assoc]
  · exact ⟨_, _, rfl, hds.zeros hbase0, by rw [numVal_zeros, hval]⟩

/-- The prefix of an integer conversion without `#`, as a sign. -/
inductive SignPrefix : CString → ℤ → Prop
  | none : SignPrefix [] 1
  | space : SignPrefix [' '] 1
  | plus : SignPrefix ['+'] 1
  | minus : SignPrefix ['-'] (-1)

/-- A printed integer is read as the number, with its sign. -/
theorem strtoNum_numberText {F : Type} (d : Directive F) (hleft : d.flags.left = false) {u base : ℕ}
    (hbase : 2 ≤ base) (hle : base ≤ 16) (upper : Bool) {pre : CString} {sign : ℤ} (hpre : SignPrefix pre sign)
    (hdigit : ¬ (d.prec = 0 ∧ u = 0)) :
    strtoNum (d.numberText u base upper pre) base = (i64 (sign * u), []) ∧
      '\x00' ∉ d.numberText u base upper pre := by
  obtain ⟨k, ds, htext, hds, rfl⟩ := numberText_spec d hleft hbase hle upper pre hdigit
  have hblanks : ∀ (k : ℕ) (c : Char), c ∈ List.replicate k ' ' → isspace c = true := fun k c hc => by
    rw [List.eq_of_mem_replicate hc]
    decide
  have hnul : '\x00' ∉ ds := fun h => absurd (isDigitOf_range (hds.2 _ h)) (by decide)
  have hread : readSign ((List.replicate k ' ' ++ pre ++ ds).dropWhile isspace) = (sign, ds) := by
    obtain ⟨c, r, hcons, hc⟩ := hds.cons
    cases hpre with
    | none => rw [List.append_nil, hcons, readSign_unsigned (hblanks k) hc]
    | space => rw [← List.replicate_succ', hcons, readSign_unsigned (hblanks (k + 1)) hc]
    | plus => rw [List.append_assoc, List.singleton_append, readSign_plus (hblanks k)]
    | minus => rw [List.append_assoc, List.singleton_append, readSign_minus (hblanks k)]
  rw [htext]
  constructor
  · have := strtoNum_of_digits (by omega) hle hds (congrArg Prod.snd hread)
    rw [this]
    simp only [signOf, hread]
  · cases hpre <;> simp [hnul]

theorem strtoull_of_strtoNum {t : CString} {base u : ℕ} (hu : u < 2 ^ 64)
    (h : strtoNum t base = (i64 (1 * u), [])) : strtoull t base = ((u : ℤ), []) := by
  have hmod : i64 u % 2 ^ 64 = u := by
    rw [i64_modEq u]
    omega
  rw [one_mul] at h
  simp only [strtoull, strtoll, h, hmod]

/-- The text of `%llu`, `%llx`, `%llX` and `%llo`. -/
theorem strtoull_text {F : Type} {D : Doubles F} {d : Directive F} (base : ℕ) (hll : d.lng = 2)
    (hleft : d.flags.left = false) (hdigit : ¬ (d.prec = 0 ∧ d.arg.word % 2 ^ 64 = 0)) (hbase : 2 ≤ base)
    (hle : base ≤ 16) {upper : Bool}
    (hnum : d.number = some (d.unsignedArg, base, upper, [])) :
    '\x00' ∉ d.text D ∧ strtoull (d.text D) base = (((d.arg.word % 2 ^ 64 : ℕ) : ℤ), []) := by
  have harg : d.unsignedArg = d.arg.word % 2 ^ 64 := if_pos (by omega)
  have htext : d.text D = d.numberText (d.arg.word % 2 ^ 64) base upper [] := by
    rw [Directive.text, hnum, harg]
  obtain ⟨hread, hnul⟩ := strtoNum_numberText d hleft hbase hle upper .none hdigit
  rw [htext]
  exact ⟨hnul, strtoull_of_strtoNum (Nat.mod_lt _ (by decide)) hread⟩

/-- The text of `%lld`. -/
theorem strtoll_text {F : Type} {D : Doubles F} {d : Directive F} (hll : d.lng = 2) (hleft : d.flags.left = false)
    (hdigit : ¬ (d.prec = 0 ∧ d.arg.word % 2 ^ 64 = 0)) (hconv : d.conv = 'd') :
    '\x00' ∉ d.text D ∧ strtoll (d.text D) 10 = (i64 d.arg.word, []) := by
  have harg : d.signedArg = i64 d.arg.word := if_pos (by omega)
  obtain ⟨pre, sign, hpre, hnum, hsign⟩ : ∃ pre sign, SignPrefix pre sign ∧
      d.number = some (d.signedArg.natAbs, 10, false, pre) ∧ sign * (d.signedArg.natAbs : ℤ) = d.signedArg := by
    simp only [Directive.number, hconv]
    split_ifs with hneg hplus hspace
    · exact ⟨_, _, .minus, rfl, by omega⟩
    · exact ⟨_, _, .plus, rfl, by omega⟩
    · exact ⟨_, _, .space, rfl, by omega⟩
    · exact ⟨_, _, .none, rfl, by omega⟩
  have hzero : ¬ (d.prec = 0 ∧ d.signedArg.natAbs = 0) := by
    rintro ⟨hprec, hzero⟩
    have hmod := i64_modEq d.arg.word
    rw [← harg, Int.natAbs_eq_zero.1 hzero] at hmod
    have : (d.arg.word : ℤ) % 2 ^ 64 = 0 := hmod.symm
    exact hdigit ⟨hprec, by omega⟩
  have htext : d.text D = d.numberText d.signedArg.natAbs 10 false pre := by rw [Directive.text, hnum]
  obtain ⟨hread, hnul⟩ := strtoNum_numberText d hleft (by decide : 2 ≤ 10) (by decide) false hpre hzero
  rw [hsign, harg, i64_congr (i64_modEq _), ← harg] at hread
  rw [htext, ← harg]
  exact ⟨hnul, hread⟩

/-- The string at an address. -/
def CStringAt (mem : ℕ → Char) (t : CString) : Prop :=
  '\x00' ∉ t ∧ (∀ i < t.length, t[i]? = some (mem i)) ∧ mem t.length = '\x00'

/-- **What `vsnprintf` prints is read again:** for every format that is one conversion `%lld`,
`%llu`, `%llx`, `%llX` or `%llo` without `-` and `#`, with any width, precision, `+` and `0` that
leave a digit, and for every argument. -/
theorem strtoll_vsnprintf {F : Type} (D : Doubles F) (out : ℕ → Char) (size : ℕ) (fmt : CString)
    (args : ℕ → VaArg F) (d : Directive F) (hfmt : items args fmt 0 0 = [.conv d])
    (hconv : d.conv ∈ ['d', 'u', 'x', 'X', 'o']) (hll : d.lng = 2)
    (hleft : d.flags.left = false) (halt : d.flags.alt = false)
    (hdigit : ¬ (d.prec = 0 ∧ d.arg.word % 2 ^ 64 = 0)) (hsize : (formatted D fmt args).length < size) :
    ∃ n mem t, vsnprintf D out size fmt args = some (n, mem) ∧ CStringAt mem t ∧
      (d.conv = 'd' → strtoll t 10 = (i64 d.arg.word, [])) ∧
      (d.conv = 'u' → strtoull t 10 = (((d.arg.word % 2 ^ 64 : ℕ) : ℤ), [])) ∧
      (d.conv = 'x' ∨ d.conv = 'X' → strtoull t 16 = (((d.arg.word % 2 ^ 64 : ℕ) : ℤ), [])) ∧
      (d.conv = 'o' → strtoull t 8 = (((d.arg.word % 2 ^ 64 : ℕ) : ℤ), [])) := by
  have htext : formatted D fmt args = d.text D := by simp [formatted, hfmt, Item.text]
  have hfloat : ∀ d', .conv d' ∈ items args fmt 0 0 → d'.InBounds D := by
    intro d' hd'
    rw [hfmt, List.mem_singleton] at hd'
    cases hd'
    exact d.inBounds_of_not_isFloat fun h => by
      simp only [List.mem_cons, List.not_mem_nil, or_false] at hconv
      rcases hconv with hc | hc | hc | hc | hc <;> simp [Directive.IsFloat, hc] at h
  have hparts : '\x00' ∉ d.text D ∧
      (d.conv = 'd' → strtoll (d.text D) 10 = (i64 d.arg.word, [])) ∧
      (d.conv = 'u' → strtoull (d.text D) 10 = (((d.arg.word % 2 ^ 64 : ℕ) : ℤ), [])) ∧
      (d.conv = 'x' ∨ d.conv = 'X' → strtoull (d.text D) 16 = (((d.arg.word % 2 ^ 64 : ℕ) : ℤ), [])) ∧
      (d.conv = 'o' → strtoull (d.text D) 8 = (((d.arg.word % 2 ^ 64 : ℕ) : ℤ), [])) := by
    simp only [List.mem_cons, List.not_mem_nil, or_false] at hconv
    rcases hconv with hc | hc | hc | hc | hc
    · obtain ⟨hnul, hread⟩ := strtoll_text (D := D) hll hleft hdigit hc
      exact ⟨hnul, fun _ => hread, by simp [hc]⟩
    · obtain ⟨hnul, hread⟩ := strtoull_text (D := D) 10 hll hleft hdigit (by decide) (by decide)
        (by simp only [Directive.number, hc]; rfl)
      exact ⟨hnul, by simp [hc], fun _ => hread, by simp [hc]⟩
    · obtain ⟨hnul, hread⟩ := strtoull_text (D := D) 16 hll hleft hdigit (by decide) (by decide)
        (by simp only [Directive.number, hc, halt]; rfl)
      exact ⟨hnul, by simp [hc], by simp [hc], fun _ => hread, by simp [hc]⟩
    · obtain ⟨hnul, hread⟩ := strtoull_text (D := D) 16 hll hleft hdigit (by decide) (by decide)
        (by simp only [Directive.number, hc, halt]; rfl)
      exact ⟨hnul, by simp [hc], by simp [hc], fun _ => hread, by simp [hc]⟩
    · obtain ⟨hnul, hread⟩ := strtoull_text (D := D) 8 hll hleft hdigit (by decide) (by decide)
        (by simp only [Directive.number, hc, halt]; rfl)
      exact ⟨hnul, by simp [hc], by simp [hc], by simp [hc], fun _ => hread⟩
  refine ⟨_, _, d.text D, vsnprintf_eq hfloat out size, ⟨hparts.1, fun i hi => ?_, ?_⟩, hparts.2⟩
  · rw [htext] at hsize ⊢
    dsimp only
    rw [if_neg (by omega), if_pos (by omega), List.getElem?_eq_getElem hi, Option.getD_some]
  · rw [htext] at hsize ⊢
    exact if_pos (by omega)

/-- The hypotheses of `strtoll_vsnprintf` are satisfiable: `%+08lld` of -5. -/
theorem strtoll_vsnprintf_minus_five : ∃ n mem t,
    vsnprintf exactDoubles (fun _ => ' ') 16 "%+08lld".toList (fun _ => ⟨2 ^ 64 - 5, [], 0⟩) = some (n, mem) ∧
      CStringAt mem t ∧ strtoll t 10 = (-5, []) := by
  obtain ⟨n, mem, t, hprint, hmem, hread, -⟩ := strtoll_vsnprintf exactDoubles (fun _ => ' ') 16 "%+08lld".toList
    (fun _ => ⟨2 ^ 64 - 5, [], 0⟩) ⟨⟨false, true, true, false, false⟩, 8, -1, 2, 'd', ⟨2 ^ 64 - 5, [], 0⟩⟩
    rfl (by decide) rfl rfl rfl (by decide) (by decide +kernel)
  exact ⟨n, mem, t, hprint, hmem, hread rfl⟩

end LighthOS
