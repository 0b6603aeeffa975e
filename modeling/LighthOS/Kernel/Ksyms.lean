/-
# The kernel's symbol table

`ksym_lookup` of `src/kernel/ksyms.c` names the function that an address of a crash
dump lies in: it searches the table that `tools/gen_ksyms.sh` makes of the output of
`nm -n`, whose entries are sorted by address, for the last one that is not behind the
address.

The search is modelled with its 32-bit arithmetic, and an access outside of the table gives no
result.  Its invariant is that the entry at `lo` is not behind the address while the one
at `hi`, if there is one, is (`ksymSearch_spec`): what is left between them in the end
is one entry.  The second part says that the name which the pointer leads to is the one that `nm` printed
for this entry (`genKsyms_name`).
-/

import Mathlib.Data.List.TakeWhile
import Mathlib.Tactic

namespace LighthOS

/-- `struct ksym`. -/
structure Ksym where
  addr : ℕ
  nameOff : ℕ

/-- The three objects of the generated file; `ksym_count` is the length of `ksyms`. -/
structure KsymTable where
  ksyms : List Ksym
  ksymStrs : List UInt8

/-- The loop of `ksym_lookup`, none where it reads outside of the table. -/
def ksymSearch (ksyms : List Ksym) (rip : ℕ) : ℕ → ℕ → ℕ → Option ℕ
  | 0, _, _ => none
  | fuel + 1, lo, hi =>
      if (lo + 1) % 2 ^ 32 < hi then
        let mid := (lo + hi) % 2 ^ 32 / 2
        match ksyms[mid]? with
        | none => none
        | some s => if s.addr ≤ rip then ksymSearch ksyms rip fuel mid hi else ksymSearch ksyms rip fuel lo mid
      else some lo

/-- What `ksym_lookup` returns: the position of the name in `ksym_strs`, and the offset that
it stores. -/
structure KsymHit where
  name : ℕ
  offset : ℕ
  deriving DecidableEq

/-- `ksym_lookup` in at most `fuel` rounds: `some none` for `NULL`. -/
def ksymLookup (t : KsymTable) (fuel rip : ℕ) : Option (Option KsymHit) :=
  match t.ksyms with
  | [] => some none
  | first :: _ =>
      if rip < first.addr then some none
      else
        match ksymSearch t.ksyms rip fuel 0 t.ksyms.length with
        | none => none
        | some lo => (t.ksyms[lo]?).map fun s => some ⟨s.nameOff, (rip + 2 ^ 64 - s.addr) % 2 ^ 64⟩

/-- The table is sorted by address. -/
def KsymTable.Sorted (t : KsymTable) : Prop := t.ksyms.Pairwise fun s s' => s.addr ≤ s'.addr

/-- The entry at `i` is the last one that is not behind `rip`. -/
structure KsymTable.LastAt (t : KsymTable) (rip i : ℕ) (s : Ksym) : Prop where
  entry : t.ksyms[i]? = some s
  reached : s.addr ≤ rip
  last : ∀ j s', i < j → t.ksyms[j]? = some s' → rip < s'.addr

/-- **The search** keeps an entry that is not behind `rip` at `lo` and one that is behind it, or the
end of the table, at `hi`. -/
theorem ksymSearch_spec {ksyms : List Ksym} (hlen : ksyms.length < 2 ^ 31) (rip : ℕ) {fuel lo hi : ℕ}
    (hlt : lo < hi) (hhi : hi ≤ ksyms.length) (hfuel : hi - lo ≤ fuel)
    (hlo : ∀ s, ksyms[lo]? = some s → s.addr ≤ rip) (habove : ∀ s, ksyms[hi]? = some s → rip < s.addr) :
    ∃ i < ksyms.length, ksymSearch ksyms rip fuel lo hi = some i ∧
      (∀ s, ksyms[i]? = some s → s.addr ≤ rip) ∧ ∀ s, ksyms[i + 1]? = some s → rip < s.addr := by
  induction fuel generalizing lo hi with
  | zero => omega
  | succ fuel ih =>
      have hlo32 : (lo + 1) % 2 ^ 32 = lo + 1 := Nat.mod_eq_of_lt (by omega)
      have hmid32 : (lo + hi) % 2 ^ 32 = lo + hi := Nat.mod_eq_of_lt (by omega)
      rw [ksymSearch, hlo32, hmid32]
      by_cases hgap : lo + 1 < hi
      · have hmid : (lo + hi) / 2 < ksyms.length := by omega
        simp only [if_pos hgap, List.getElem?_eq_getElem hmid]
        by_cases haddr : (ksyms[(lo + hi) / 2]).addr ≤ rip
        · rw [if_pos haddr]
          refine ih (by omega) hhi (by omega) ?_ habove
          intro s hs
          rw [List.getElem?_eq_getElem hmid, Option.some.injEq] at hs
          exact hs ▸ haddr
        · rw [if_neg haddr]
          refine ih (by omega) hmid.le (by omega) hlo ?_
          intro s hs
          rw [List.getElem?_eq_getElem hmid, Option.some.injEq] at hs
          exact hs ▸ Nat.lt_of_not_le haddr
      · have hnext : hi = lo + 1 := by omega
        rw [if_neg hgap]
        exact ⟨lo, by omega, rfl, hlo, hnext ▸ habove⟩

/-- In a sorted table, the entries behind one that is behind `rip` are behind it too. -/
theorem KsymTable.Sorted.last {t : KsymTable} (h : t.Sorted) {rip i : ℕ}
    (hnext : ∀ s, t.ksyms[i + 1]? = some s → rip < s.addr) {j : ℕ} {s' : Ksym} (hj : i < j)
    (hs' : t.ksyms[j]? = some s') : rip < s'.addr := by
  obtain ⟨hjlen, rfl⟩ := List.getElem?_eq_some_iff.1 hs'
  have hilen : i + 1 < t.ksyms.length := by omega
  have hi := hnext _ (List.getElem?_eq_getElem hilen)
  rcases Nat.eq_or_lt_of_le (show i + 1 ≤ j from hj) with rfl | hij
  · exact hi
  · exact hi.trans_le (List.pairwise_iff_getElem.1 h (i + 1) j hilen hjlen hij)

/-- The last entry that is not behind `rip` has the greatest such address. -/
theorem KsymTable.Sorted.greatest {t : KsymTable} (h : t.Sorted) {rip i : ℕ} {s : Ksym}
    (hs : t.LastAt rip i s) {s' : Ksym} (hs' : s' ∈ t.ksyms) (hle : s'.addr ≤ rip) : s'.addr ≤ s.addr := by
  obtain ⟨hi, rfl⟩ := List.getElem?_eq_some_iff.1 hs.entry
  obtain ⟨j, hj, rfl⟩ := List.getElem_of_mem hs'
  rcases Nat.lt_trichotomy j i with hji | rfl | hij
  · exact List.pairwise_iff_getElem.1 h j i hj hi hji
  · exact le_rfl
  · exact absurd hle (Nat.not_le_of_lt (hs.last j _ hij (List.getElem?_eq_getElem hj)))

/-- Unless it returns `NULL`, `ksym_lookup` returns the last entry that is not behind `rip`. -/
theorem ksymLookup_hit {t : KsymTable} (hcount : t.ksyms.length < 2 ^ 31) (hsorted : t.Sorted) {rip : ℕ}
    (hrip : rip < 2 ^ 64) {fuel : ℕ} (hfuel : t.ksyms.length ≤ fuel) {first : Ksym}
    (hfirst : t.ksyms[0]? = some first) (hle : first.addr ≤ rip) :
    ∃ i s, t.LastAt rip i s ∧ ksymLookup t fuel rip = some (some ⟨s.nameOff, rip - s.addr⟩) := by
  have hpos : 0 < t.ksyms.length := (List.getElem?_eq_some_iff.1 hfirst).1
  have hlo : ∀ s, t.ksyms[0]? = some s → s.addr ≤ rip := by
    intro s hs
    rw [hfirst, Option.some.injEq] at hs
    exact hs ▸ hle
  obtain ⟨i, hi, hsearch, hreached, hnext⟩ := ksymSearch_spec hcount rip hpos le_rfl hfuel hlo (by simp)
  have hentry : t.ksyms[i]? = some t.ksyms[i] := List.getElem?_eq_getElem hi
  have haddr := hreached _ hentry
  refine ⟨i, t.ksyms[i], ⟨hentry, haddr, fun j s' => hsorted.last hnext⟩, ?_⟩
  have hoff : (rip + 2 ^ 64 - t.ksyms[i].addr) % 2 ^ 64 = rip - t.ksyms[i].addr := by
    rw [show rip + 2 ^ 64 - t.ksyms[i].addr = rip - t.ksyms[i].addr + 2 ^ 64 by omega, Nat.add_mod_right]
    exact Nat.mod_eq_of_lt (by omega)
  unfold ksymLookup
  split
  · next hnil => simp [hnil] at hfirst
  · next s l hk =>
      have hs : s = first := by simpa [hk] using hfirst
      rw [hs, if_neg (Nat.not_lt.2 hle), hsearch]
      simp only [hentry, Option.map_some, hoff]

/-! ### The generated table -/

/-- The entries that the second `awk` program prints, from the offset `off` on. -/
def genEntries : ℕ → List (ℕ × List UInt8) → List Ksym
  | _, [] => []
  | off, (addr, name) :: lines => ⟨addr, off⟩ :: genEntries (off + name.length + 1) lines

/-- The strings that the first `awk` program prints: the names, each with a zero byte behind it. -/
def genStrs (lines : List (ℕ × List UInt8)) : List UInt8 := lines.flatMap fun line => line.2 ++ [0]

/-- `gen_ksyms.sh` on the lines of `nm -n` that it keeps. -/
def genKsyms (lines : List (ℕ × List UInt8)) : KsymTable := ⟨genEntries 0 lines, genStrs lines⟩

/-- The string at a position of `ksym_strs`. -/
def KsymTable.nameAt (t : KsymTable) (pos : ℕ) : List UInt8 := (t.ksymStrs.drop pos).takeWhile (· ≠ 0)

theorem genEntries_map_addr (off : ℕ) (lines : List (ℕ × List UInt8)) :
    (genEntries off lines).map Ksym.addr = lines.map Prod.fst := by
  induction lines generalizing off with
  | nil => rfl
  | cons line lines ih => rw [genEntries, List.map_cons, List.map_cons, ih]

/-- Lines that `nm` has sorted make a sorted table. -/
theorem genKsyms_sorted {lines : List (ℕ × List UInt8)} (h : lines.Pairwise fun l l' => l.1 ≤ l'.1) :
    (genKsyms lines).Sorted := by
  have haddrs : ((genEntries 0 lines).map Ksym.addr).Pairwise (· ≤ ·) := by
    rw [genEntries_map_addr]
    exact List.pairwise_map.2 h
  exact List.pairwise_map.1 haddrs

/-- The names in front of `front ++ genStrs lines` that the offsets from `front.length` on lead to. -/
theorem genEntries_name {lines : List (ℕ × List UInt8)} (hnames : ∀ l ∈ lines, (0 : UInt8) ∉ l.2)
    (front : List UInt8) {i : ℕ} {s : Ksym} (hs : (genEntries front.length lines)[i]? = some s) :
    ∃ l, lines[i]? = some l ∧ s.addr = l.1 ∧
      ((front ++ genStrs lines).drop s.nameOff).takeWhile (· ≠ 0) = l.2 := by
  induction lines generalizing front i with
  | nil => simp [genEntries] at hs
  | cons line lines ih =>
      have hstrs : genStrs (line :: lines) = line.2 ++ [0] ++ genStrs lines := rfl
      rw [genEntries] at hs
      cases i with
      | zero =>
          rw [List.getElem?_cons_zero, Option.some.injEq] at hs
          subst hs
          refine ⟨line, rfl, rfl, ?_⟩
          have hne : ∀ b ∈ line.2, decide (b ≠ 0) = true := by
            intro b hb
            exact decide_eq_true fun h0 => hnames line List.mem_cons_self (h0 ▸ hb)
          rw [hstrs, List.drop_left, List.append_assoc, List.takeWhile_append_of_pos hne]
          simp
      | succ i =>
          rw [List.getElem?_cons_succ] at hs
          have hfront : front.length + line.2.length + 1 = (front ++ line.2 ++ [0]).length := by
            simp [Nat.add_assoc]
          rw [hfront] at hs
          obtain ⟨l, hl, haddr, hname⟩ := ih (fun l hl => hnames l (List.mem_cons_of_mem _ hl)) _ hs
          refine ⟨l, hl, haddr, ?_⟩
          rw [hstrs, ← hname]
          simp [List.append_assoc]

/-- **The name of an entry** of the generated table is the one in the line of `nm` that it was made
of. -/
theorem genKsyms_name {lines : List (ℕ × List UInt8)} (hnames : ∀ l ∈ lines, (0 : UInt8) ∉ l.2) {i : ℕ}
    {s : Ksym} (hs : (genKsyms lines).ksyms[i]? = some s) :
    ∃ l, lines[i]? = some l ∧ s.addr = l.1 ∧ (genKsyms lines).nameAt s.nameOff = l.2 :=
  genEntries_name hnames [] hs

/-! ### Lookup -/

/-- **`ksym_lookup` is a predecessor search.**  On a sorted table it ends within as many rounds as
the table has entries, without reading outside of it.  It returns `NULL` exactly where the table is
empty or `rip` is before its first address.  Otherwise it returns the name of the last entry that is
not behind `rip`, which has the greatest such address, and the distance from it; in the table that
`gen_ksyms.sh` makes, this is the name that `nm` printed for that entry. -/
theorem ksymLookup_predecessor (t : KsymTable) (hcount : t.ksyms.length < 2 ^ 31) (hsorted : t.Sorted)
    (rip : ℕ) (hrip : rip < 2 ^ 64) (fuel : ℕ) (hfuel : t.ksyms.length ≤ fuel) :
    ∃ r, ksymLookup t fuel rip = some r ∧
      (r = none ↔ t.ksyms = [] ∨ ∃ s, t.ksyms[0]? = some s ∧ rip < s.addr) ∧
      ∀ hit, r = some hit → ∃ i s, t.LastAt rip i s ∧ (∀ s' ∈ t.ksyms, s'.addr ≤ rip → s'.addr ≤ s.addr) ∧
        hit.name = s.nameOff ∧ hit.offset = rip - s.addr ∧
        ∀ lines, t = genKsyms lines → (∀ l ∈ lines, (0 : UInt8) ∉ l.2) →
          ∃ l, lines[i]? = some l ∧ s.addr = l.1 ∧ t.nameAt hit.name = l.2 := by
  cases hfirst : t.ksyms[0]? with
  | none =>
      have hnil : t.ksyms = [] := by simpa using hfirst
      exact ⟨none, by rw [ksymLookup, hnil], by simp [hnil], by simp⟩
  | some first =>
      have hne : t.ksyms ≠ [] := by
        intro hnil
        simp [hnil] at hfirst
      by_cases hlt : rip < first.addr
      · refine ⟨none, ?_, by simpa using Or.inr hlt, by simp⟩
        unfold ksymLookup
        split
        · rfl
        · next s l hk =>
            have hs : s = first := by simpa [hk] using hfirst
            rw [hs, if_pos hlt]
      · obtain ⟨i, s, hlast, hlook⟩ := ksymLookup_hit hcount hsorted hrip hfuel hfirst (Nat.le_of_not_lt hlt)
        refine ⟨_, hlook, by simpa [hne] using hlt, ?_⟩
        rintro _ ⟨⟩
        refine ⟨i, s, hlast, fun s' => hsorted.greatest hlast, rfl, rfl, ?_⟩
        rintro lines rfl hnames
        exact genKsyms_name hnames hlast.entry

/-- The hypotheses of `ksymLookup_predecessor` are satisfiable: of two functions at one address the
second is named. -/
theorem ksymLookup_predecessor_three :
    ∃ r, ksymLookup (genKsyms [(16, [97]), (32, [98]), (32, [99])]) 3 40 = some r ∧
      (r = none ↔ (genKsyms [(16, [97]), (32, [98]), (32, [99])]).ksyms = [] ∨
        ∃ s, (genKsyms [(16, [97]), (32, [98]), (32, [99])]).ksyms[0]? = some s ∧ 40 < s.addr) ∧
      r = some ⟨4, 8⟩ := by
  obtain ⟨r, hr, hnull, -⟩ := ksymLookup_predecessor (genKsyms [(16, [97]), (32, [98]), (32, [99])])
    (by decide) (genKsyms_sorted (by decide)) 40 (by decide) 3 (by decide)
  refine ⟨r, hr, hnull, ?_⟩
  exact (Option.some.inj hr).symm

end LighthOS
