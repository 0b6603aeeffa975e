/-
# The environment of a program

`getenv`, `setenv` and `unsetenv` of `user/ulib.c`.  `environ` is an array of strings
`name=value`.  The first `setenv` or `unsetenv` copies the array of the parent to `env_backing`
(`env_adopt`), which holds 63 strings; new strings go to `env_pool`, 4096 bytes that are never
given back, so a string in the array keeps its text.  `size_t` has 32 bits.

The operations are those of a map (`EnvOp.Laws`) exactly if no key is repeated in the array of
the parent: `unsetenv` removes the first string of a key, and `getenv` then finds the next one
(`env_map_iff`).
-/

import LighthOS.Kernel.Path

namespace LighthOS

/-! ### The functions -/

/-- `getenv`, on the strings of `environ`. -/
def getenv (env : List CString) (name : CString) : Option CString :=
  env.findSome? fun e =>
    if e.take name.length = name ∧ e[name.length]? = some '=' then some (e.drop (name.length + 1)) else none

/-- `strncmp(e, name, nlen) == 0 && e[nlen] == '='`. -/
def isEntry (name e : CString) : Bool := decide (e.take name.length = name) && e[name.length]? == some '='

/-- The strings of `environ`, `env_backing_live` and `env_pool_used`. -/
structure Env where
  environ : List CString
  live : Bool
  poolUsed : ℕ

namespace Env

/-- `env_adopt`. -/
def adopt (e : Env) : Env := if e.live then e else { e with environ := e.environ.take 63, live := true }

/-- The end of `setenv`: the new string goes to the array. -/
def place (e : Env) (slot : Option ℕ) (dst : CString) : ℤ × Env :=
  match slot with
  | some i => (0, { e with environ := e.environ.set i dst })
  | none => if 63 ≤ e.environ.length then (-1, e) else (0, { e with environ := e.environ ++ [dst] })

/-- `setenv`: what it returns, and the environment.  `none` is a copy that leaves `env_pool`. -/
def setenv (e : Env) (name value : CString) (overwrite : Bool) : Option (ℤ × Env) :=
  if name = [] ∨ '=' ∈ name then some (-1, e)
  else
    let e := e.adopt
    let slot := e.environ.findIdx? (isEntry name)
    if slot.isSome ∧ overwrite = false then some (0, e)
    else
      let need := (name.length + 1 + value.length + 1) % 2 ^ 32
      if 4096 < (e.poolUsed + need) % 2 ^ 32 then some (-1, e)
      else if 4096 < e.poolUsed + (name.length + 1 + value.length + 1) then none
      else
        some ({ e with poolUsed := e.poolUsed + need }.place slot (name ++ '=' :: value))

/-- `unsetenv`: the strings behind the first entry move down. -/
def unsetenv (e : Env) (name : CString) : Env :=
  { e.adopt with environ := e.adopt.environ.eraseP (isEntry name) }

/-- The environment that a program starts with. -/
def start (envp : List CString) : Env := ⟨envp, false, 0⟩

end Env

/-! ### The laws -/

/-- The operations. -/
inductive EnvOp
  | set (name value : CString) (overwrite : Bool)
  | unset (name : CString)
  | get (name : CString)

namespace EnvOp

/-- One operation: what it returns, and the environment. -/
def step (e : Env) : EnvOp → Option (ℤ × Env)
  | set name value overwrite => e.setenv name value overwrite
  | unset name => some (0, e.unsetenv name)
  | get _ => some (0, e)

/-- The laws of a map, for an operation that returns `r` and takes `e` to `e'`. -/
def Laws (e : Env) (r : ℤ) (e' : Env) : EnvOp → Prop
  | set k v overwrite =>
      (r = 0 → overwrite = true → getenv e'.environ k = some v) ∧
        (overwrite = false → ∀ w, getenv e.environ k = some w → getenv e'.environ k = some w) ∧
        (∀ k', '=' ∉ k' → k' ≠ k → getenv e'.environ k' = getenv e.environ k') ∧
        (r = -1 → ∀ k', getenv e'.environ k' = getenv e.environ k')
  | unset k => getenv e'.environ k = none ∧
      ∀ k', '=' ∉ k' → k' ≠ k → getenv e'.environ k' = getenv e.environ k'
  | get _ => ∀ k', getenv e'.environ k' = getenv e.environ k'

/-- The name is a key, and sizes are those of a `size_t`. -/
def Proper : EnvOp → Prop
  | set k v _ => 4096 + (k.length + 1 + v.length + 1) < 2 ^ 32
  | unset k => '=' ∉ k
  | get _ => True

end EnvOp

/-- Every operation of a sequence obeys the laws. -/
def Lawful : Env → List EnvOp → Prop
  | _, [] => True
  | e, op :: ops => ∃ r e', op.step e = some (r, e') ∧ op.Laws e r e' ∧ Lawful e' ops

/-- No key has two strings. -/
def NoRepeats (env : List CString) : Prop := ∀ k, '=' ∉ k → env.countP (isEntry k) ≤ 1

/-! ### Entries -/

theorem isEntry_iff {k e : CString} : isEntry k e = true ↔ ∃ v, e = k ++ '=' :: v := by
  unfold isEntry
  rw [Bool.and_eq_true, decide_eq_true_eq, beq_iff_eq]
  constructor
  · rintro ⟨htake, heq⟩
    obtain ⟨hlt, hget⟩ := List.getElem?_eq_some_iff.1 heq
    refine ⟨e.drop (k.length + 1), ?_⟩
    calc e = e.take k.length ++ e.drop k.length := (List.take_append_drop _ _).symm
      _ = k ++ '=' :: e.drop (k.length + 1) := by rw [htake, List.drop_eq_getElem_cons hlt, hget]
  · rintro ⟨v, rfl⟩
    simp

theorem getenv_eq_find? (env : List CString) (k : CString) :
    getenv env k = (env.find? (isEntry k)).map (·.drop (k.length + 1)) := by
  induction env with
  | nil => rfl
  | cons e env ih =>
      unfold getenv at ih ⊢
      by_cases he : isEntry k e = true
      · have hcond : e.take k.length = k ∧ e[k.length]? = some '=' := by simpa [isEntry] using he
        rw [List.findSome?_cons, if_pos hcond, List.find?_cons_of_pos he]
        rfl
      · have hcond : ¬ (e.take k.length = k ∧ e[k.length]? = some '=') := by simpa [isEntry] using he
        rw [List.findSome?_cons, if_neg hcond, List.find?_cons_of_neg he]
        exact ih

/-- A string has one key. -/
theorem isEntry_unique {k k' e : CString} (hk : '=' ∉ k) (hk' : '=' ∉ k') (h : isEntry k e = true)
    (h' : isEntry k' e = true) : k' = k := by
  obtain ⟨v, rfl⟩ := isEntry_iff.1 h
  obtain ⟨v', heq⟩ := isEntry_iff.1 h'
  have htake : ∀ {k v : CString}, '=' ∉ k → (k ++ '=' :: v).takeWhile (· != '=') = k := by
    intro k v hk
    have hall : ∀ c ∈ k, (c != '=') = true := fun c hc => by
      rw [bne_iff_ne]
      rintro rfl
      exact hk hc
    rw [List.takeWhile_append_of_pos hall]
    simp
  rw [← htake (v := v) hk, heq, htake hk']

theorem findIdx?_split {p : CString → Bool} {l : List CString} {i : ℕ} (h : l.findIdx? p = some i) :
    ∃ l₁ x l₂, l = l₁ ++ x :: l₂ ∧ l₁.length = i ∧ p x = true ∧ ∀ y ∈ l₁, ¬ p y = true := by
  induction l generalizing i with
  | nil => simp at h
  | cons a l ih =>
      by_cases ha : p a = true
      · rw [List.findIdx?_cons, if_pos ha, Option.some.injEq] at h
        exact ⟨[], a, l, rfl, h, ha, by simp⟩
      · rw [List.findIdx?_cons, if_neg ha, Option.map_eq_some_iff] at h
        obtain ⟨j, hj, rfl⟩ := h
        obtain ⟨l₁, x, l₂, rfl, rfl, hx, hl₁⟩ := ih hj
        refine ⟨a :: l₁, x, l₂, rfl, rfl, hx, fun y hy => ?_⟩
        rcases List.mem_cons.1 hy with rfl | hy
        · exact ha
        · exact hl₁ y hy

theorem find?_append_none {p : CString → Bool} {l₁ l₂ : List CString} (h : ∀ y ∈ l₁, ¬ p y = true) :
    (l₁ ++ l₂).find? p = l₂.find? p := by
  rw [List.find?_append, List.find?_eq_none.2 h, Option.none_or]

/-- Strings that are no entry of a key do not matter to it. -/
theorem getenv_congr_middle {k x y : CString} (hx : isEntry k x = false) (hy : isEntry k y = false)
    (l₁ l₂ : List CString) : getenv (l₁ ++ x :: l₂) k = getenv (l₁ ++ y :: l₂) k := by
  rw [getenv_eq_find?, getenv_eq_find?, List.find?_append, List.find?_append, List.find?_cons_of_neg (by simp [hx]),
    List.find?_cons_of_neg (by simp [hy])]

theorem getenv_drop_middle {k x : CString} (hx : isEntry k x = false) (l₁ l₂ : List CString) :
    getenv (l₁ ++ x :: l₂) k = getenv (l₁ ++ l₂) k := by
  rw [getenv_eq_find?, getenv_eq_find?, List.find?_append, List.find?_append, List.find?_cons_of_neg (by simp [hx])]

theorem getenv_first {k v : CString} {l₁ l₂ : List CString} (h : ∀ y ∈ l₁, ¬ isEntry k y = true) :
    getenv (l₁ ++ (k ++ '=' :: v) :: l₂) k = some v := by
  rw [getenv_eq_find?, find?_append_none h, List.find?_cons_of_pos (isEntry_iff.2 ⟨v, rfl⟩)]
  simp

/-! ### The operations obey the laws -/

/-- `env_adopt` keeps the strings where there are at most 63. -/
theorem Env.adopt_environ {e : Env} (h : e.environ.length ≤ 63) : e.adopt.environ = e.environ := by
  unfold Env.adopt
  split_ifs
  · rfl
  · exact List.take_of_length_le h

/-- What holds between two operations. -/
structure Env.Ok (e : Env) : Prop where
  length_le : e.environ.length ≤ 63
  used_le : e.poolUsed ≤ 4096
  noRepeats : NoRepeats e.environ

theorem Env.Ok.adopt {e : Env} (h : e.Ok) : e.adopt.Ok := by
  refine ⟨by rw [Env.adopt_environ h.length_le]; exact h.length_le, ?_,
    by rw [Env.adopt_environ h.length_le]; exact h.noRepeats⟩
  unfold Env.adopt
  split_ifs <;> exact h.used_le

/-- The ways of `setenv`, on an environment that is adopted: `l₁` are the strings before the
entry of the name. -/
inductive SetWay (e : Env) (name value : CString) (overwrite : Bool) : ℤ → Env → Prop
  | refused {n : ℕ} (hn : n ≤ 4096) : SetWay e name value overwrite (-1) { e with poolUsed := n }
  | kept (hname : '=' ∉ name) (hover : overwrite = false) : SetWay e name value overwrite 0 e
  | replaced {n : ℕ} {l₁ l₂ : List CString} {x : CString} (hname : '=' ∉ name) (hn : n ≤ 4096)
      (hover : overwrite = true) (henv : e.environ = l₁ ++ x :: l₂) (hx : isEntry name x = true)
      (hl₁ : ∀ y ∈ l₁, ¬ isEntry name y = true) :
      SetWay e name value overwrite 0 { e with poolUsed := n, environ := l₁ ++ (name ++ '=' :: value) :: l₂ }
  | added {n : ℕ} (hname : '=' ∉ name) (hn : n ≤ 4096) (hlen : e.environ.length < 63)
      (hnone : ∀ y ∈ e.environ, ¬ isEntry name y = true) :
      SetWay e name value overwrite 0 { e with poolUsed := n, environ := e.environ ++ [name ++ '=' :: value] }

theorem Env.setenv_way {e : Env} (h : e.Ok) {name value : CString} (overwrite : Bool)
    (hsize : 4096 + (name.length + 1 + value.length + 1) < 2 ^ 32) :
    ∃ r e', e.setenv name value overwrite = some (r, e') ∧
      (e' = e ∧ r = -1 ∨ SetWay e.adopt name value overwrite r e') := by
  have hused := h.adopt.used_le
  unfold Env.setenv
  dsimp only
  split_ifs with hname hkept hfull hpool
  · exact ⟨_, _, rfl, .inl ⟨rfl, rfl⟩⟩
  · exact ⟨_, _, rfl, .inr (.kept (fun h => hname (.inr h)) hkept.2)⟩
  · exact ⟨_, _, rfl, .inr (.refused (n := e.adopt.poolUsed) hused)⟩
  · omega
  · have hname : '=' ∉ name := fun h => hname (.inr h)
    have hn : e.adopt.poolUsed + (name.length + 1 + value.length + 1) % 2 ^ 32 ≤ 4096 := by omega
    cases hslot : e.adopt.environ.findIdx? (isEntry name) with
    | some i =>
        obtain ⟨l₁, x, l₂, henv, rfl, hx, hl₁⟩ := findIdx?_split hslot
        have hover : overwrite = true := by simpa [hslot] using hkept
        refine ⟨_, _, rfl, .inr ?_⟩
        simp only [henv, List.set_append_right _ _ (le_refl _), Nat.sub_self, List.set_cons_zero]
        exact .replaced hname hn hover henv hx hl₁
    | none =>
        have hnone : ∀ y ∈ e.adopt.environ, ¬ isEntry name y = true := fun y hy => by
          simpa using List.findIdx?_eq_none_iff.1 hslot y hy
        unfold Env.place
        dsimp only
        split_ifs with hmax
        · exact ⟨_, _, rfl, .inr (.refused hn)⟩
        · exact ⟨_, _, rfl, .inr (.added hname hn (by omega) hnone)⟩

theorem countP_isEntry_of_none {k : CString} {l : List CString} (h : ∀ y ∈ l, ¬ isEntry k y = true) :
    l.countP (isEntry k) = 0 := List.countP_eq_zero.2 h

theorem isEntry_new (k v : CString) : isEntry k (k ++ '=' :: v) = true := isEntry_iff.2 ⟨v, rfl⟩

theorem isEntry_other {k k' e : CString} (hk : '=' ∉ k) (hk' : '=' ∉ k') (hne : k' ≠ k) (h : isEntry k e = true) :
    isEntry k' e = false := Bool.eq_false_iff.2 fun h' => hne (isEntry_unique hk hk' h h')

/-- **`setenv` keeps the array in order.** -/
theorem SetWay.ok {e e' : Env} {k v : CString} {overwrite : Bool} {r : ℤ} (h : SetWay e k v overwrite r e')
    (hok : e.Ok) : e'.Ok := by
  obtain ⟨hlen, hused, hrep⟩ := hok
  cases h with
  | refused hn => exact ⟨hlen, hn, hrep⟩
  | kept => exact ⟨hlen, hused, hrep⟩
  | @replaced n l₁ l₂ x hk hn _ henv hx _ =>
      refine ⟨by simpa [henv] using hlen, hn, fun k' hk' => ?_⟩
      have hold := hrep k' hk'
      rw [henv] at hold
      by_cases hne : k' = k
      · subst hne
        simpa [hx, isEntry_new] using hold
      · simpa [isEntry_other hk hk' hne hx, isEntry_other hk hk' hne (isEntry_new k v)] using hold
  | added hk hn hlt hnone =>
      refine ⟨by simpa using hlt, hn, fun k' hk' => ?_⟩
      have hold := hrep k' hk'
      by_cases hne : k' = k
      · subst hne
        simp [countP_isEntry_of_none hnone, isEntry_new]
      · simpa [isEntry_other hk hk' hne (isEntry_new k v)] using hold

/-- **`setenv` obeys its laws.** -/
theorem SetWay.laws {e e' : Env} {k v : CString} {overwrite : Bool} {r : ℤ} (h : SetWay e k v overwrite r e') :
    (EnvOp.set k v overwrite).Laws e r e' := by
  cases h with
  | refused => exact ⟨fun h => absurd h (by decide), fun _ _ h => h, fun _ _ _ => rfl, fun _ _ => rfl⟩
  | kept _ hover => exact ⟨fun _ h => absurd (hover.symm.trans h) (by decide), fun _ _ h => h, fun _ _ _ => rfl, fun _ _ => rfl⟩
  | @replaced n l₁ l₂ x hk _ hover henv hx hl₁ =>
      refine ⟨fun _ _ => getenv_first hl₁, fun h => absurd (hover.symm.trans h) (by decide), fun k' hk' hne => ?_,
        fun h => absurd h (by decide)⟩
      rw [henv]
      exact getenv_congr_middle (isEntry_other hk hk' hne (isEntry_new k v)) (isEntry_other hk hk' hne hx) l₁ l₂
  | added hk _ _ hnone =>
      have hget : getenv e.environ k = none := by rw [getenv_eq_find?, List.find?_eq_none.2 hnone, Option.map_none]
      refine ⟨fun _ _ => getenv_first hnone, fun _ w hw => ?_, fun k' hk' hne => ?_, fun h => absurd h (by decide)⟩
      · rw [hget] at hw
        cases hw
      · have := getenv_drop_middle (isEntry_other hk hk' hne (isEntry_new k v)) e.environ []
        rwa [List.append_nil] at this

theorem EnvOp.Laws.of_environ_eq {e₀ e e' : Env} {r : ℤ} {op : EnvOp} (h : op.Laws e r e')
    (heq : e.environ = e₀.environ) : op.Laws e₀ r e' := by
  cases op <;> simpa only [EnvOp.Laws, heq] using h

/-- **`unsetenv` obeys its laws** where the key has one string at most. -/
theorem Env.Ok.unsetenv {e : Env} (hok : e.Ok) {k : CString} (hk : '=' ∉ k) :
    (e.unsetenv k).Ok ∧ (EnvOp.unset k).Laws e 0 (e.unsetenv k) := by
  have henv := Env.adopt_environ hok.length_le
  have hrep := hok.noRepeats k hk
  unfold Env.unsetenv EnvOp.Laws
  simp only [henv]
  have hcount : ∀ k', (e.environ.eraseP (isEntry k)).countP (isEntry k') ≤ e.environ.countP (isEntry k') := fun k' =>
    List.eraseP_sublist.countP_le
  refine ⟨⟨(List.length_eraseP_le).trans hok.length_le, hok.adopt.used_le,
    fun k' hk' => (hcount k').trans (hok.noRepeats k' hk')⟩, ?_⟩
  by_cases hany : ∃ y ∈ e.environ, isEntry k y = true
  · obtain ⟨y, hy, hyk⟩ := hany
    obtain ⟨x, l₁, l₂, hl₁, hx, hsplit, herase⟩ := List.exists_of_eraseP hy hyk
    rw [herase]
    constructor
    · -- the key has no other string
      rw [hsplit, List.countP_append, List.countP_cons_of_pos hx] at hrep
      have hl₂ : ∀ y ∈ l₂, ¬ isEntry k y = true := List.countP_eq_zero.1 (by omega)
      rw [getenv_eq_find?, find?_append_none fun y hy => hl₁ y hy, List.find?_eq_none.2 hl₂, Option.map_none]
    · intro k' hk' hne
      rw [hsplit, getenv_drop_middle (isEntry_other hk hk' hne hx)]
  · have hnone : ∀ y ∈ e.environ, ¬ isEntry k y = true := fun y hy h => hany ⟨y, hy, h⟩
    rw [List.eraseP_of_forall_not hnone]
    exact ⟨by rw [getenv_eq_find?, List.find?_eq_none.2 hnone, Option.map_none], fun _ _ _ => rfl⟩

/-- **An operation obeys its laws,** and keeps the array in order. -/
theorem Env.Ok.step {e : Env} (hok : e.Ok) {op : EnvOp} (hop : op.Proper) :
    ∃ r e', op.step e = some (r, e') ∧ op.Laws e r e' ∧ e'.Ok := by
  cases op with
  | set k v overwrite =>
      obtain ⟨r, e', hset, ⟨rfl, rfl⟩ | hway⟩ := Env.setenv_way hok overwrite hop
      · exact ⟨_, _, hset, ⟨fun h => absurd h (by decide), fun _ _ h => h, fun _ _ _ => rfl, fun _ _ => rfl⟩, hok⟩
      · exact ⟨r, e', hset, hway.laws.of_environ_eq (Env.adopt_environ hok.length_le), hway.ok hok.adopt⟩
  | unset k => exact ⟨0, _, rfl, (hok.unsetenv hop).2, (hok.unsetenv hop).1⟩
  | get k => exact ⟨0, e, rfl, fun _ => rfl, hok⟩

theorem Env.Ok.lawful {e : Env} (hok : e.Ok) (ops : List EnvOp) (hops : ∀ op ∈ ops, op.Proper) : Lawful e ops := by
  induction ops generalizing e with
  | nil => trivial
  | cons op ops ih =>
      obtain ⟨r, e', hstep, hlaws, hok'⟩ := hok.step (hops op List.mem_cons_self)
      exact ⟨r, e', hstep, hlaws, ih hok' fun op h => hops op (List.mem_cons_of_mem _ h)⟩

/-- A key with two strings is still there after `unsetenv`. -/
theorem getenv_eraseP_of_repeat {env : List CString} {k : CString} (h : 1 < env.countP (isEntry k)) :
    getenv (env.eraseP (isEntry k)) k ≠ none := by
  obtain ⟨y, hy, hyk⟩ := List.countP_pos_iff.1 (by omega : 0 < env.countP (isEntry k))
  obtain ⟨x, l₁, l₂, hl₁, hx, hsplit, herase⟩ := List.exists_of_eraseP hy hyk
  rw [hsplit, List.countP_append, List.countP_cons_of_pos hx, countP_isEntry_of_none hl₁] at h
  obtain ⟨z, hz, hzk⟩ := List.countP_pos_iff.1 (by omega : 0 < l₂.countP (isEntry k))
  rw [herase, getenv_eq_find?, find?_append_none hl₁, Ne, Option.map_eq_none_iff, List.find?_eq_none]
  exact fun hnone => hnone z hz hzk

/-- **The environment is a map exactly if no key of the parent's environment is repeated:** then
every sequence of operations obeys the laws, for keys without `=` and sizes that fit. -/
theorem env_map_iff (envp : List CString) (hlen : envp.length ≤ 63) :
    (∀ ops : List EnvOp, (∀ op ∈ ops, op.Proper) → Lawful (Env.start envp) ops) ↔ NoRepeats envp := by
  constructor
  · intro h k hk
    by_contra hrep
    obtain ⟨r, e', hstep, hlaws, -⟩ := h [.unset k] (by simpa [EnvOp.Proper] using hk)
    obtain ⟨rfl, rfl⟩ := Prod.mk.inj (Option.some.inj hstep)
    have hget := hlaws.1
    simp only [Env.unsetenv, Env.adopt_environ (e := Env.start envp) hlen] at hget
    exact getenv_eraseP_of_repeat (lt_of_not_ge hrep) hget
  · intro hrep ops hops
    exact Env.Ok.lawful ⟨hlen, by simp [Env.start], hrep⟩ ops hops

/-- The hypotheses of `env_map_iff` are satisfiable: an environment of two strings. -/
theorem env_map_two_strings : Lawful (Env.start ["A=1".toList, "AB=2".toList]) [.unset "A".toList, .get "A".toList] := by
  refine (env_map_iff _ (by decide)).2 (fun k hk => ?_) _ (by simp [EnvOp.Proper])
  by_cases hentry : isEntry k "A=1".toList = true
  · obtain rfl : k = "A".toList := isEntry_unique (by decide) hk (by decide) hentry
    decide
  · rw [List.countP_cons_of_neg hentry]
    exact List.countP_le_length

/-- A key that is repeated in the environment of the parent is still there after `unsetenv`. -/
theorem unsetenv_of_repeated_key :
    getenv ((Env.start ["A=1".toList, "A=2".toList]).unsetenv "A".toList).environ "A".toList = some "2".toList ∧
      ¬ Lawful (Env.start ["A=1".toList, "A=2".toList]) [.unset "A".toList] := by
  have hget : getenv ((Env.start ["A=1".toList, "A=2".toList]).unsetenv "A".toList).environ "A".toList =
      some "2".toList := by decide
  refine ⟨hget, ?_⟩
  rintro ⟨r, e', hstep, hlaws, -⟩
  obtain ⟨rfl, rfl⟩ := Prod.mk.inj (Option.some.inj hstep)
  have hnone := hlaws.1
  rw [hget] at hnone
  cases hnone

end LighthOS
