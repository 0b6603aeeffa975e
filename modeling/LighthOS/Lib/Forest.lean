/-
# Chains that share no node

A table of successors in which some nodes are in use.  `Chain next used h l` says that
`l` are the nodes from `h` to the end, all of them in use; a `Forest` has heads whose
chains share no node.

The four ways to change such a table: nodes that were not in use become a chain of their
own (`Forest.insert`), nodes that were not in use are put behind a chain
(`Forest.extend`), a chain is given up (`Forest.free`), and what is not in use changes at
will (`Forest.congr`).
-/

import LighthOS.Lib.Linked
import Mathlib.Data.Set.Insert

namespace Linked

variable {α : Type*} {next next' : α → Option α} {used used' : α → Prop} {H : Set α} {h k : α}
  {l l' : List α}

/-- The nodes from a head to the end are determined by it. -/
theorem Segment.unique {p : Option α} (hl : Segment next p l none) (hl' : Segment next p l' none) :
    l = l' := by
  induction l generalizing p l' with
  | nil =>
      cases l' with
      | nil => rfl
      | cons a l' =>
          rw [show p = none from hl] at hl'
          cases hl'.1
  | cons a l ih =>
      cases l' with
      | nil =>
          rw [show p = none from hl'] at hl
          cases hl.1
      | cons b l' =>
          obtain ⟨rfl, hl⟩ := hl
          obtain ⟨hab, hl'⟩ := hl'
          obtain rfl := Option.some.inj hab
          rw [ih hl hl']

/-- A list that ends has no node twice. -/
theorem Segment.nodup {p : Option α} (hl : Segment next p l none) : l.Nodup := by
  induction l generalizing p with
  | nil => exact List.nodup_nil
  | cons a l ih =>
      obtain ⟨rfl, hl⟩ := hl
      refine List.nodup_cons.2 ⟨fun ha => ?_, ih hl⟩
      -- behind the second `a` the list would go on as behind the first one
      obtain ⟨l₁, l₂, rfl⟩ := List.append_of_mem ha
      obtain ⟨r, -, hr⟩ := segment_append.1 hl
      have := congrArg List.length (hl.unique hr.2)
      simp only [List.length_append, List.length_cons] at this
      omega

/-- The nodes from `h` to the end, all of them in use. -/
structure Chain (next : α → Option α) (used : α → Prop) (h : α) (l : List α) : Prop where
  segment : Segment next (some h) l none
  used : ∀ x ∈ l, used x

namespace Chain

section

variable (hl : Chain next used h l)
include hl

theorem unique (hl' : Chain next used' h l') : l = l' :=
  hl.segment.unique hl'.segment

theorem nodup : l.Nodup := hl.segment.nodup

theorem eq_cons : ∃ r, l = h :: r := by
  cases l with
  | nil => cases hl.segment
  | cons a r => exact ⟨r, by rw [Option.some.inj hl.segment.1]⟩

theorem head_mem : h ∈ l := by
  obtain ⟨r, rfl⟩ := hl.eq_cons
  exact List.mem_cons_self

theorem congr (hn : ∀ x ∈ l, next' x = next x) (hu : ∀ x ∈ l, used' x) : Chain next' used' h l :=
  ⟨hl.segment.congr hn, hu⟩

end

theorem singleton (hn : next h = none) (hu : used h) : Chain next used h [h] :=
  ⟨⟨rfl, hn⟩, by simpa using hu⟩

/-- The rest of a chain is a chain. -/
theorem tail {x y : α} (hl : Chain next used h (l ++ x :: y :: l')) :
    next x = some y ∧ Chain next used y (y :: l') := by
  obtain ⟨r, -, -, hr⟩ := segment_append.1 hl.segment
  exact ⟨hr.1, ⟨rfl, hr.2⟩, fun z hz => hl.used z (by simp [List.mem_cons.1 hz])⟩

/-- The last node has no successor. -/
theorem next_last {x : α} (hl : Chain next used h (l ++ [x])) : next x = none := by
  obtain ⟨r, -, -, hr⟩ := segment_append.1 hl.segment
  exact hr

/-- A node is put behind the last node of a chain. -/
theorem snoc {x : α} (hl : Chain next used h (l ++ [x])) (hx : next' x = some k) (hk : next' k = none)
    (hn : ∀ y ∈ l, next' y = next y) (hu : ∀ y ∈ l ++ [x], used' y) (huk : used' k) :
    Chain next' used' h (l ++ [x] ++ [k]) := by
  obtain ⟨r, hr, rfl, -⟩ := segment_append.1 hl.segment
  refine ⟨segment_append.2 ⟨some k, segment_append.2 ⟨some x, hr.congr hn, rfl, hx⟩, rfl, hk⟩, ?_⟩
  intro y hy
  rcases List.mem_append.1 hy with hy | hy
  · exact hu y hy
  · rwa [List.mem_singleton.1 hy]

end Chain

/-- Heads whose chains share no node. -/
structure Forest (next : α → Option α) (used : α → Prop) (H : Set α) : Prop where
  chain : ∀ h ∈ H, ∃ l, Chain next used h l
  apart : ∀ h ∈ H, ∀ k ∈ H, h ≠ k → ∀ l l', Chain next used h l → Chain next used k l' → l.Disjoint l'

namespace Forest

variable (hF : Forest next used H)
include hF

theorem mono {H' : Set α} (hH : H' ⊆ H) : Forest next used H' :=
  ⟨fun h hh => hF.chain h (hH hh), fun h hh k hk => hF.apart h (hH hh) k (hH hk)⟩

/-- The successors of what is not on a chain may change. -/
theorem congr (hn : ∀ x, used x → next' x = next x) (hu : ∀ x, used x → used' x) :
    Forest next' used' H := by
  have hchain : ∀ h ∈ H, ∀ l, Chain next' used' h l → Chain next used h l := by
    intro h hh l hl
    obtain ⟨l₀, hl₀⟩ := hF.chain h hh
    have hl₀' := hl₀.congr (fun x hx => hn x (hl₀.used x hx)) fun x hx => hu x (hl₀.used x hx)
    rwa [← hl₀'.unique hl]
  refine ⟨fun h hh => ?_, fun h hh k hk hne l l' hl hl' => ?_⟩
  · obtain ⟨l, hl⟩ := hF.chain h hh
    exact ⟨l, hl.congr (fun x hx => hn x (hl.used x hx)) fun x hx => hu x (hl.used x hx)⟩
  · exact hF.apart h hh k hk hne l l' (hchain h hh l hl) (hchain k hk l' hl')

/-- **Nodes that were not in use become a chain.** -/
theorem insert {x : α} (hl : Chain next' used' x l) (hx : ∀ y ∈ l, ¬used y)
    (hn : ∀ y, used y → next' y = next y) (hu : ∀ y, used y → used' y) :
    Forest next' used' (insert x H) := by
  have hF' := hF.congr hn hu
  -- no old chain goes through the new nodes
  have hnew : ∀ h ∈ H, ∀ m, Chain next' used' h m → m.Disjoint l := by
    intro h hh m hm y hy hyl
    obtain ⟨m₀, hm₀⟩ := hF.chain h hh
    have hm₀' := hm₀.congr (fun x hx => hn x (hm₀.used x hx)) fun x hx => hu x (hm₀.used x hx)
    rw [hm.unique hm₀'] at hy
    exact hx y hyl (hm₀.used y hy)
  refine ⟨fun h hh => ?_, fun h hh k hk hne m m' hm hm' y hy hy' => ?_⟩
  · rcases hh with rfl | hh
    · exact ⟨_, hl⟩
    · exact hF'.chain h hh
  · rcases hh with rfl | hh <;> rcases hk with rfl | hk
    · exact hne rfl
    · rw [hm.unique hl] at hy
      exact hnew k hk m' hm' hy' hy
    · rw [hm'.unique hl] at hy'
      exact hnew h hh m hm hy hy'
    · exact hF'.apart h hh k hk hne m m' hm hm' hy hy'

/-- **Nodes that were not in use are put behind a chain.** -/
theorem extend {new : List α} (hh : h ∈ H) (hl : Chain next used h l) (hl' : Chain next' used' h (l ++ new))
    (hnew : ∀ x ∈ new, ¬used x) (hn : ∀ y, used y → y ∉ l → next' y = next y)
    (hu : ∀ y, used y → y ∉ l → used' y) : Forest next' used' H := by
  -- the other chains go neither through the old nodes nor through the new ones
  have hother : ∀ j ∈ H, j ≠ h → ∃ m, Chain next used j m ∧ Chain next' used' j m ∧ m.Disjoint (l ++ new) := by
    intro j hj hjh
    obtain ⟨m, hm⟩ := hF.chain j hj
    have hdis := hF.apart j hj h hh hjh m l hm hl
    refine ⟨m, hm, hm.congr (fun y hy => hn y (hm.used y hy) fun hyl => hdis hy hyl)
      fun y hy => hu y (hm.used y hy) fun hyl => hdis hy hyl, fun y hy hy' => ?_⟩
    rcases List.mem_append.1 hy' with hy' | hy'
    · exact hdis hy hy'
    · exact hnew y hy' (hm.used y hy)
  refine ⟨fun j hj => ?_, fun i hi j hj hij m m' hm hm' y hy hy' => ?_⟩
  · by_cases hjh : j = h
    · exact ⟨_, hjh ▸ hl'⟩
    · obtain ⟨m, -, hm, -⟩ := hother j hj hjh
      exact ⟨m, hm⟩
  · by_cases hih : i = h
    · subst hih
      obtain ⟨m₁, -, hm₁, hd⟩ := hother j hj hij.symm
      rw [hm.unique hl'] at hy
      rw [hm'.unique hm₁] at hy'
      exact hd hy' hy
    · obtain ⟨m₀, hm₀, hm₀', hd⟩ := hother i hi hih
      rw [hm.unique hm₀'] at hy
      by_cases hjh : j = h
      · subst hjh
        rw [hm'.unique hl'] at hy'
        exact hd hy hy'
      · obtain ⟨m₁, hm₁, hm₁', -⟩ := hother j hj hjh
        rw [hm'.unique hm₁'] at hy'
        exact hF.apart i hi j hj hij _ _ hm₀ hm₁ hy hy'

/-- **A chain is given up.** -/
theorem free (hh : h ∈ H) (hl : Chain next used h l) (hn : ∀ y, used y → y ∉ l → next' y = next y)
    (hu : ∀ y, used y → y ∉ l → used' y) : Forest next' used' (H \ {h}) := by
  have hother : ∀ j ∈ H \ {h}, ∃ m, Chain next used j m ∧ Chain next' used' j m := by
    rintro j ⟨hj, hjh⟩
    obtain ⟨m, hm⟩ := hF.chain j hj
    have hdis := hF.apart j hj h hh hjh m l hm hl
    exact ⟨m, hm, hm.congr (fun y hy => hn y (hm.used y hy) fun hyl => hdis hy hyl)
      fun y hy => hu y (hm.used y hy) fun hyl => hdis hy hyl⟩
  refine ⟨fun j hj => ?_, fun i hi j hj hij m m' hm hm' y hy hy' => ?_⟩
  · obtain ⟨m, -, hm⟩ := hother j hj
    exact ⟨m, hm⟩
  · obtain ⟨m₀, hm₀, hm₀'⟩ := hother i hi
    obtain ⟨m₁, hm₁, hm₁'⟩ := hother j hj
    rw [hm.unique hm₀'] at hy
    rw [hm'.unique hm₁'] at hy'
    exact hF.apart i hi.1 j hj.1 hij _ _ hm₀ hm₁ hy hy'

end Forest

end Linked
