/-
# Circular lists

An intrusive circular list is a partial function `next` that leads from a node
through all members and back to it.  `LinkedCircle next c o` says so with the members in
order: `o` starts behind `c` and ends with `c` itself.  The circle can be entered
at any other member (`LinkedCircle.rotate`), a node can be put behind `c`
(`LinkedCircle.insert`) and a member other than `c` can be taken out (`LinkedCircle.remove`).
-/

import Mathlib.Data.List.Chain
import Mathlib.Data.List.Nodup

/-- Each node of the list links to the one behind it. -/
def Links {α : Type*} (next : α → Option α) (l : List α) : Prop :=
  l.IsChain fun a b => next a = some b

namespace Links

variable {α : Type*} {next next' : α → Option α} {a b : List α} {x y : α}

theorem cons_cons : Links next (x :: y :: a) ↔ next x = some y ∧ Links next (y :: a) :=
  List.isChain_cons_cons

/-- Two lists of links that meet in `x`. -/
theorem split : Links next (a ++ x :: b) ↔ Links next (a ++ [x]) ∧ Links next (x :: b) :=
  List.isChain_split

/-- A node with the link of the first one can stand in its place. -/
theorem restart (h : Links next (x :: a)) (hy : next' y = next x) (ha : Links next' a) :
    Links next' (y :: a) := by
  cases a with
  | nil => exact List.isChain_singleton y
  | cons z a => exact cons_cons.2 ⟨hy.trans (cons_cons.1 h).1, ha⟩

/-- The link of the last node does not matter. -/
theorem congr (h : Links next (a ++ [x])) (hn : ∀ y ∈ a, next' y = next y) : Links next' (a ++ [x]) := by
  induction a with
  | nil => exact List.isChain_singleton x
  | cons y a ih =>
      exact restart h (hn y List.mem_cons_self) (ih h.tail fun z hz => hn z (List.mem_cons_of_mem _ hz))

end Links

/-- The links lead from `c` through the members of `o`, one after another, and the
last of them is `c`. -/
structure LinkedCircle {α : Type*} (next : α → Option α) (c : α) (o : List α) : Prop where
  links : Links next (c :: o)
  last : o.getLast? = some c
  nodup : o.Nodup

namespace LinkedCircle

variable {α : Type*} {next next' : α → Option α} {c : α} {o : List α}

/-- The members before `c`. -/
theorem init (h : LinkedCircle next c o) : ∃ m, o = m ++ [c] ∧ c ∉ m := by
  obtain ⟨m, rfl⟩ := List.getLast?_eq_some_iff.1 h.last
  refine ⟨m, rfl, fun hc => ?_⟩
  exact (List.nodup_append.1 h.nodup).2.2 c hc c (List.mem_singleton_self c) rfl

theorem self_mem (h : LinkedCircle next c o) : c ∈ o := List.mem_of_getLast? h.last

/-- Nothing comes behind `c`. -/
theorem eq_nil {a b : List α} (h : LinkedCircle next c (a ++ c :: b)) : b = [] := by
  have hc : c ∉ b := (List.nodup_cons.1 (List.nodup_append.1 h.nodup).2.1).1
  cases b with
  | nil => rfl
  | cons x b =>
      have hlast : (x :: b).getLast? = some c := by simpa [List.getLast?_append] using h.last
      exact absurd (List.mem_of_getLast? hlast) hc

/-- The circle depends on the links of its members only. -/
theorem congr (h : LinkedCircle next c o) (hn : ∀ x ∈ o, next' x = next x) : LinkedCircle next' c o := by
  refine ⟨?_, h.last, h.nodup⟩
  obtain ⟨m, rfl, -⟩ := h.init
  refine Links.congr (a := c :: m) h.links fun x hx => hn x ?_
  rcases List.mem_cons.1 hx with rfl | hx
  · simp
  · simp [hx]

/-- **Another member** has the same circle, entered behind it. -/
theorem rotate {n : α} {a b : List α} (h : LinkedCircle next c (a ++ n :: b)) :
    LinkedCircle next n (b ++ a ++ [n]) := by
  refine ⟨?_, by simp, ?_⟩
  · obtain ⟨h₁, h₂⟩ := Links.split (a := c :: a).1 h.links
    -- the first part ends with `c`, where the second one starts
    obtain ⟨d, hd⟩ : ∃ d, n :: b = d ++ [c] :=
      List.getLast?_eq_some_iff.1 (by simpa [List.getLast?_append] using h.last)
    have he : n :: (b ++ a ++ [n]) = d ++ c :: (a ++ [n]) := by
      rw [List.append_assoc, ← List.cons_append, hd, List.append_assoc, List.singleton_append]
    rw [he]
    exact Links.split.2 ⟨hd ▸ h₂, h₁⟩
  · refine h.nodup.perm ?_
    rw [List.append_assoc]
    exact (List.perm_append_comm.trans (by simp)).symm

/-- Every member has a link. -/
theorem exists_next (h : LinkedCircle next c o) {x : α} (hx : x ∈ o) : ∃ y, next x = some y := by
  obtain ⟨a, b, rfl⟩ := List.append_of_mem hx
  have hlinks := h.rotate.links
  cases hl : b ++ a ++ [x] with
  | nil => exact absurd hl (by simp)
  | cons y l =>
      rw [hl] at hlinks
      exact ⟨y, (Links.cons_cons.1 hlinks).1⟩

/-- **A new node** behind `c`. -/
theorem insert (h : LinkedCircle next c o) {t : α} (ht : t ∉ o) (hc : next' c = some t)
    (hnew : next' t = next c) (hold : ∀ x ∈ o, x ≠ c → next' x = next x) :
    LinkedCircle next' c (t :: o) := by
  refine ⟨Links.cons_cons.2 ⟨hc, ?_⟩, ?_, List.nodup_cons.2 ⟨ht, h.nodup⟩⟩
  · obtain ⟨m, rfl, hm⟩ := h.init
    refine h.links.restart hnew (Links.congr h.links.tail fun x hx => hold x (by simp [hx]) ?_)
    rintro rfl
    exact hm hx
  · rw [List.getLast?_cons, h.last]
    rfl

/-- **A member is taken out**: the node `p` before it gets its link. -/
theorem remove {a b d : List α} {v p : α} (h : LinkedCircle next c (a ++ v :: b)) (hv : v ≠ c)
    (hp : c :: a = d ++ [p]) (hlink : next' p = next v)
    (hold : ∀ x ∈ a ++ b, x ≠ p → next' x = next x) : LinkedCircle next' c (a ++ b) := by
  obtain ⟨e, rfl⟩ : ∃ e, b = e ++ [c] := by
    have hlast : (v :: b).getLast? = some c := by simpa [List.getLast?_append] using h.last
    rw [List.getLast?_cons, Option.some.injEq] at hlast
    cases hb : b.getLast? with
    | none => exact absurd (by simpa [hb] using hlast) hv
    | some x => exact List.getLast?_eq_some_iff.1 (hb.trans (by simpa [hb] using hlast))
  have hnodup : (a ++ (e ++ [c])).Nodup := h.nodup.sublist (by simp)
  have hce : (d ++ [p] ++ e).Nodup := by
    rw [← hp]
    refine hnodup.perm ?_
    rw [← List.append_assoc]
    exact List.perm_append_singleton c (a ++ e)
  have hpd : ∀ y ∈ d ++ e, y ≠ p := by
    rintro y hy rfl
    simp only [List.nodup_append, List.mem_append, List.mem_singleton] at hce hy
    rcases hy with hy | hy
    · exact hce.1.2.2 y hy y rfl rfl
    · exact hce.2.2 y (Or.inr rfl) y hy rfl
  have hmem : ∀ y ∈ d, y ∈ a ++ (e ++ [c]) := fun y hy => by
    have hy : y ∈ c :: a := by rw [hp]; simp [hy]
    rcases List.mem_cons.1 hy with rfl | hy
    · simp
    · simp [hy]
  refine ⟨?_, by simp [← List.append_assoc], hnodup⟩
  have hlinks := h.links
  rw [← List.cons_append, hp, List.append_assoc, List.singleton_append, Links.split] at hlinks
  obtain ⟨hfirst, hrest⟩ := hlinks
  rw [← List.cons_append, hp, List.append_assoc, List.singleton_append, Links.split]
  refine ⟨hfirst.congr fun y hy => hold y (hmem y hy) (hpd y (by simp [hy])), ?_⟩
  -- `p` links to what was behind the member taken out
  obtain ⟨-, hrest⟩ := Links.cons_cons.1 hrest
  exact hrest.restart hlink
    (Links.congr hrest.tail fun y hy => hold y (by simp [hy]) (hpd y (by simp [hy])))

end LinkedCircle
