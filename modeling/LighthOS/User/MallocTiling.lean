/-
# The blocks of the user heap

`Shape s l fl` says that the headers of the arena `s` describe the blocks at the
addresses `l`: they tile the arena, each holds the size of the one before it, and
the free list runs through `fl`, which are blocks of the arena.  `FlagsOk s l fl`
says that the blocks marked as free are those of the free list.

The functions of the source change one field of one header at a time.  A header
is inside its block, so that the headers of the other blocks stay
(`Shape.hdr_setHdr`).
-/

import LighthOS.User.Malloc
import LighthOS.Lib.Tiling

namespace LighthOS

open Tiling (Tiles)

/-! ### Headers -/

theorem storeHdr_of_outside (mem : Cells) {a x : ℕ} (h : Hdr) (hx : x < a ∨ a + hdrSize ≤ x) :
    storeHdr mem a h x = mem x := by
  unfold hdrSize at hx
  unfold storeHdr
  rw [if_neg (by omega), if_neg (by omega), if_neg (by omega), if_neg (by omega)]

theorem loadHdr_congr {mem mem' : Cells} {a : ℕ} (h : ∀ z, a ≤ z → z < a + hdrSize → mem' z = mem z) :
    loadHdr mem' a = loadHdr mem a := by
  unfold hdrSize at h
  unfold loadHdr
  rw [h a (by omega) (by omega), h (a + 4) (by omega) (by omega), h (a + 8) (by omega) (by omega),
    h (a + 16) (by omega) (by omega)]

namespace Arena

variable (s : Arena) (a : ℕ) (f : Hdr → Hdr)

@[simp] theorem setHdr_arenaStart : (s.setHdr a f).arenaStart = s.arenaStart := rfl
@[simp] theorem setHdr_arenaEnd : (s.setHdr a f).arenaEnd = s.arenaEnd := rfl

@[simp] theorem hdr_setHdr_self : (s.setHdr a f).hdr a = f (s.hdr a) := by
  unfold Arena.hdr setHdr
  generalize f (loadHdr s.mem a) = h
  obtain ⟨size, prevSize, nextFree, free⟩ := h
  cases free <;> simp [loadHdr, storeHdr]

theorem setHdr_mem_of_outside {x : ℕ} (hx : x < a ∨ a + hdrSize ≤ x) : (s.setHdr a f).mem x = s.mem x :=
  storeHdr_of_outside s.mem _ hx

theorem hdr_setHdr_of_apart {c : ℕ} (h : a + hdrSize ≤ c ∨ c + hdrSize ≤ a) :
    (s.setHdr a f).hdr c = s.hdr c :=
  loadHdr_congr fun z h₁ h₂ => setHdr_mem_of_outside s a f (by omega)

theorem hdr_setHdr_of_spread {s : Arena} {a c : ℕ} (h : c ≠ a → a + hdrSize ≤ c ∨ c + hdrSize ≤ a)
    (f : Hdr → Hdr) : (s.setHdr a f).hdr c = if c = a then f (s.hdr a) else s.hdr c := by
  split_ifs with hca
  · rw [hca, hdr_setHdr_self]
  · exact hdr_setHdr_of_apart s a f (h hca)

end Arena

/-- An address in no header of the blocks at `l`. -/
def Outside (l : List ℕ) (z : ℕ) : Prop := ∀ a ∈ l, z < a ∨ a + hdrSize ≤ z

theorem Outside.setHdr {l : List ℕ} {z a : ℕ} (h : Outside l z) (ha : a ∈ l) (s : Arena) (f : Hdr → Hdr) :
    (s.setHdr a f).mem z = s.mem z :=
  Arena.setHdr_mem_of_outside s a f (h a ha)

theorem Outside.setLink {l : List ℕ} {z : ℕ} (h : Outside l z) {prev : Option ℕ} (hq : ∀ q ∈ prev, q ∈ l)
    (s : Arena) (t : ℕ) : (setLink s prev t).mem z = s.mem z := by
  cases prev with
  | none => rfl
  | some q => exact h.setHdr (hq q rfl) s fun x => { x with nextFree := t }

theorem Outside.freelistInsert {l : List ℕ} {z a : ℕ} (h : Outside l z) (ha : a ∈ l) (s : Arena) :
    (freelistInsert s a).mem z = s.mem z :=
  h.setHdr ha s fun x => { x with free := true, nextFree := s.freeHead }

theorem setLink_arena (s : Arena) (prev : Option ℕ) (t : ℕ) :
    (setLink s prev t).arenaStart = s.arenaStart ∧ (setLink s prev t).arenaEnd = s.arenaEnd := by
  cases prev <;> exact ⟨rfl, rfl⟩

/-! ### The arena -/

/-- Each block holds the size of the one before it; `p` is the size before the
first. -/
def Prevs (s : Arena) : ℕ → List ℕ → Prop
  | _, [] => True
  | p, a :: l => (s.hdr a).prevSize = p ∧ Prevs s (s.hdr a).size l

/-- The headers describe the blocks at `l`, and the free list runs through `fl`. -/
structure Shape (s : Arena) (l fl : List ℕ) : Prop where
  tiles : Tiles id (fun a => (s.hdr a).size) s.arenaStart l s.arenaEnd
  prevs : Prevs s 0 l
  room : ∀ a ∈ l, hdrSize ≤ (s.hdr a).size
  aligned : ∀ a ∈ l, a % 8 = 0
  alignedEnd : s.arenaEnd % 8 = 0
  pos : ∀ a ∈ l, a ≠ 0
  small : s.arenaEnd < s.arenaStart + 2 ^ 32
  chain : Linked.Segment (nextFree s) (toPtr s.freeHead) fl none
  nodup : fl.Nodup
  sub : ∀ a ∈ fl, a ∈ l

/-- The blocks marked as free are those of the free list. -/
def FlagsOk (s : Arena) (l fl : List ℕ) : Prop := ∀ a ∈ l, (s.hdr a).free = true ↔ a ∈ fl

theorem Prevs.congr {s s' : Arena} {l : List ℕ} {p : ℕ} (h : Prevs s p l)
    (hs : ∀ a ∈ l, (s'.hdr a).size = (s.hdr a).size ∧ (s'.hdr a).prevSize = (s.hdr a).prevSize) :
    Prevs s' p l := by
  induction l generalizing p with
  | nil => trivial
  | cons a l ih =>
      obtain ⟨h₁, h₂⟩ := hs a List.mem_cons_self
      refine ⟨h₂.trans h.1, ?_⟩
      rw [h₁]
      exact ih h.2 fun b hb => hs b (List.mem_cons_of_mem a hb)

/-- The size of the last block of a list, `p` where it is empty. -/
def lastSize (s : Arena) (p : ℕ) (l : List ℕ) : ℕ := (l.getLast?.map fun a => (s.hdr a).size).getD p

theorem prevs_append {s : Arena} {l₁ l₂ : List ℕ} {p : ℕ} :
    Prevs s p (l₁ ++ l₂) ↔ Prevs s p l₁ ∧ Prevs s (lastSize s p l₁) l₂ := by
  induction l₁ generalizing p with
  | nil => simp [Prevs, lastSize]
  | cons a l₁ ih =>
      have hlast : lastSize s (s.hdr a).size l₁ = lastSize s p (a :: l₁) := by
        rw [lastSize, lastSize, List.getLast?_cons]
        cases l₁.getLast? <;> rfl
      rw [List.cons_append, Prevs, Prevs, ih, hlast, and_assoc]

theorem lastSize_congr {s s' : Arena} {l : List ℕ} (p : ℕ) (h : ∀ a ∈ l, (s'.hdr a).size = (s.hdr a).size) :
    lastSize s' p l = lastSize s p l := by
  unfold lastSize
  cases hl : l.getLast? with
  | none => rfl
  | some a => simp [h a (List.mem_of_getLast? hl)]

namespace Shape

variable {s s' : Arena} {l fl fl' as bs xs ys : List ℕ} {a b c : ℕ}

section

variable (h : Shape s l fl)
include h

/-- Headers of different blocks do not overlap. -/
theorem apart (ha : a ∈ l) (hc : c ∈ l) (hne : a ≠ c) : a + hdrSize ≤ c ∨ c + hdrSize ≤ a := by
  have h₁ := h.room a ha
  have h₂ := h.room c hc
  rcases h.tiles.eq_or_apart ha hc with heq | hd | hd
  · exact absurd heq hne
  · exact Or.inl (by simp only [id] at hd; omega)
  · exact Or.inr (by simp only [id] at hd; omega)

/-- A change of one header leaves the others alone, whatever they hold by now. -/
theorem hdr_setHdr {t : Arena} (ha : a ∈ l) (hc : c ∈ l) (f : Hdr → Hdr) :
    (t.setHdr a f).hdr c = if c = a then f (t.hdr a) else t.hdr c :=
  Arena.hdr_setHdr_of_spread (fun hca => h.apart ha hc (Ne.symm hca)) f

theorem nodupBlocks : l.Nodup :=
  h.tiles.nodup fun a ha => Nat.lt_of_lt_of_le (by decide) (h.room a ha)

/-- The blocks stay where their sizes stay. -/
theorem of_sizes (hstart : s'.arenaStart = s.arenaStart) (hend : s'.arenaEnd = s.arenaEnd)
    (hs : ∀ a ∈ l, (s'.hdr a).size = (s.hdr a).size ∧ (s'.hdr a).prevSize = (s.hdr a).prevSize)
    (hchain : Linked.Segment (nextFree s') (toPtr s'.freeHead) fl' none)
    (hnodup : fl'.Nodup) (hsub : ∀ a ∈ fl', a ∈ l) : Shape s' l fl' where
  tiles := by
    rw [hstart, hend]
    exact h.tiles.congr fun a ha => (hs a ha).1
  prevs := h.prevs.congr hs
  room a ha := by
    rw [(hs a ha).1]
    exact h.room a ha
  aligned := h.aligned
  alignedEnd := hend ▸ h.alignedEnd
  pos := h.pos
  small := by
    rw [hstart, hend]
    exact h.small
  chain := hchain
  nodup := hnodup
  sub := hsub

/-- The list is shorter than the arena. -/
theorem length_lt : fl.length < 2 ^ 32 := by
  have h₁ := h.tiles.length_mul_le (m := 1) fun a ha => by
    have := h.room a ha
    simp only [hdrSize] at this
    omega
  have h₂ : fl.length ≤ l.length := (h.nodup.subperm h.sub).length_le
  have := h.small
  omega

theorem length_le : fl.length ≤ addressSpace := by
  have := h.length_lt
  simp only [addressSpace]
  omega

/-- The bytes of a block behind its header are in no header. -/
theorem outside_payload (ha : a ∈ l) {z : ℕ} (h₁ : a + hdrSize ≤ z) (h₂ : z < a + (s.hdr a).size) : Outside l z := by
  intro c hc
  rcases h.tiles.eq_or_apart ha hc with rfl | hd | hd
  · exact Or.inr h₁
  · simp only [id] at hd
    omega
  · have := h.room c hc
    simp only [id] at hd
    omega

/-! ### The free list -/

/-- A mark changes. -/
theorem setFree (ha : a ∈ l) (v : Bool) : Shape (s.setHdr a fun x => { x with free := v }) l fl := by
  have hs : ∀ c ∈ l, ((s.setHdr a fun x => { x with free := v }).hdr c).size = (s.hdr c).size ∧
      ((s.setHdr a fun x => { x with free := v }).hdr c).prevSize = (s.hdr c).prevSize ∧
      ((s.setHdr a fun x => { x with free := v }).hdr c).nextFree = (s.hdr c).nextFree := by
    intro c hc
    rw [h.hdr_setHdr ha hc]
    split_ifs with hca
    · rw [hca]
      exact ⟨rfl, rfl, rfl⟩
    · exact ⟨rfl, rfl, rfl⟩
  refine h.of_sizes rfl rfl (fun c hc => ⟨(hs c hc).1, (hs c hc).2.1⟩) (h.chain.congr fun c hc => ?_)
    h.nodup h.sub
  rw [nextFree, nextFree, (hs c (h.sub c hc)).2.2]

theorem hdr_freelistInsert (hb : b ∈ l) (hc : c ∈ l) : (freelistInsert s b).hdr c
      = if c = b then { s.hdr b with free := true, nextFree := s.freeHead } else s.hdr c :=
  h.hdr_setHdr hb hc fun h => { h with free := true, nextFree := s.freeHead }

/-- **`freelist_insert`** puts a block in front. -/
theorem freelistInsert (hb : b ∈ l) (hnew : b ∉ fl) : Shape (freelistInsert s b) l (b :: fl) := by
  have hhdr := fun c hc => h.hdr_freelistInsert (c := c) hb hc
  refine h.of_sizes rfl rfl (fun c hc => ?_) ⟨toPtr_of_ne_zero (h.pos b hb), ?_⟩
    (List.nodup_cons.2 ⟨hnew, h.nodup⟩) fun a ha => ?_
  · rw [hhdr c hc]
    split_ifs with hcb
    · rw [hcb]
      exact ⟨rfl, rfl⟩
    · exact ⟨rfl, rfl⟩
  · rw [nextFree, hhdr b hb, if_pos rfl]
    refine h.chain.congr fun c hc => ?_
    rw [nextFree, nextFree, hhdr c (h.sub c hc), if_neg]
    rintro rfl
    exact hnew hc
  · rcases List.mem_cons.1 ha with rfl | ha
    · exact hb
    · exact h.sub a ha

/-- A link of the free list changes no other field. -/
theorem core_setLink {prev : Option ℕ} (hq : ∀ q ∈ prev, q ∈ l) (t : ℕ) (hc : c ∈ l) :
    ((setLink s prev t).hdr c).size = (s.hdr c).size ∧
      ((setLink s prev t).hdr c).prevSize = (s.hdr c).prevSize ∧
      ((setLink s prev t).hdr c).free = (s.hdr c).free := by
  cases prev with
  | none => exact ⟨rfl, rfl, rfl⟩
  | some q =>
      rw [LighthOS.setLink, h.hdr_setHdr (hq q rfl) hc]
      split_ifs with hcq
      · rw [hcq]
        exact ⟨rfl, rfl, rfl⟩
      · exact ⟨rfl, rfl, rfl⟩

end

/-- **A block is taken out of the free list** by a change of the link before it. -/
theorem setLink (h : Shape s l (xs ++ b :: ys)) :
    Shape (setLink s xs.getLast? (s.hdr b).nextFree) l (xs ++ ys) := by
  have hsub : ∀ a ∈ xs ++ ys, a ∈ l := fun a ha => h.sub a (by
    rcases List.mem_append.1 ha with ha | ha <;> simp [ha])
  have hnodup : (xs ++ ys).Nodup := h.nodup.sublist ((List.Sublist.refl xs).append (List.sublist_cons_self b ys))
  obtain ⟨r, hxs, rfl, hys⟩ := Linked.segment_append.1 h.chain
  have hlast : ∀ q ∈ xs.getLast?, q ∈ l := fun q hq => h.sub q (by
    simp [List.mem_of_getLast? hq])
  obtain ⟨hstart, hend⟩ := setLink_arena s xs.getLast? (s.hdr b).nextFree
  refine h.of_sizes hstart hend (fun c hc => ?_) ?_ hnodup hsub
  · obtain ⟨h₁, h₂, -⟩ := h.core_setLink hlast (s.hdr b).nextFree hc
    exact ⟨h₁, h₂⟩
  rcases List.eq_nil_or_concat xs with rfl | ⟨zs, q, rfl⟩
  · exact hys
  · rw [List.concat_eq_append] at *
    obtain ⟨r, hzs, rfl, hq⟩ := Linked.segment_append.1 hxs
    have hqnot : q ∉ zs ∧ q ∉ ys := by
      have := h.nodup
      simp only [List.append_assoc, List.cons_append, List.nil_append, List.nodup_append, List.nodup_cons,
        List.mem_cons] at this
      grind
    have hql : q ∈ l := h.sub q (by simp)
    have hnext : ∀ c ∈ l, c ≠ q →
        nextFree (s.setHdr q fun x => { x with nextFree := (s.hdr b).nextFree }) c = nextFree s c := by
      intro c hc hcq
      rw [nextFree, nextFree, h.hdr_setHdr hql hc, if_neg hcq]
    simp only [List.getLast?_concat, LighthOS.setLink]
    rw [List.append_assoc]
    refine Linked.segment_append.2 ⟨some q, hzs.congr fun c hc => ?_, rfl, ?_⟩
    · refine hnext c (h.sub c (by simp [hc])) ?_
      rintro rfl
      exact hqnot.1 hc
    · rw [nextFree, Arena.hdr_setHdr_self]
      refine Linked.Segment.congr (l := ys) hys fun c hc => hnext c (h.sub c (by simp [hc])) ?_
      rintro rfl
      exact hqnot.2 hc

/-- **`freelist_remove`** takes a block out of the free list and marks it. -/
theorem freelistRemove (h : Shape s l (xs ++ b :: ys)) :
    ∃ s', freelistRemove s b = some s' ∧ Shape s' l (xs ++ ys) ∧
      (∀ c ∈ l, (s'.hdr c).size = (s.hdr c).size ∧ (s'.hdr c).prevSize = (s.hdr c).prevSize ∧
        ((s'.hdr c).free = if c = b then false else (s.hdr c).free)) ∧
      (∀ z, Outside l z → s'.mem z = s.mem z) ∧
      s'.arenaStart = s.arenaStart ∧ s'.arenaEnd = s.arenaEnd := by
  have hb : b ∈ l := h.sub b (by simp)
  have h₁ := h.setFree hb false
  have hcore : ∀ c ∈ l, ((s.setHdr b fun x => { x with free := false }).hdr c).size = (s.hdr c).size ∧
      ((s.setHdr b fun x => { x with free := false }).hdr c).prevSize = (s.hdr c).prevSize ∧
      (((s.setHdr b fun x => { x with free := false }).hdr c).free
        = if c = b then false else (s.hdr c).free) := by
    intro c hc
    rw [h.hdr_setHdr hb hc]
    split_ifs with hcb
    · rw [hcb]
      exact ⟨rfl, rfl, rfl⟩
    · exact ⟨rfl, rfl, rfl⟩
  have hlast : ∀ q ∈ xs.getLast?, q ∈ l := fun q hq => h.sub q (by
    simp [List.mem_of_getLast? hq])
  refine ⟨LighthOS.setLink (s.setHdr b fun x => { x with free := false }) xs.getLast?
    ((s.setHdr b fun x => { x with free := false }).hdr b).nextFree, ?_, h₁.setLink, fun c hc => ?_,
    fun z hz => (hz.setLink hlast _ _).trans (hz.setHdr hb s _), setLink_arena _ _ _⟩
  · unfold LighthOS.freelistRemove
    simp only
    generalize (s.setHdr b fun x => { x with free := false }) = s₁ at h₁
    rcases List.eq_nil_or_concat xs with rfl | ⟨zs, q, rfl⟩
    · rw [if_pos ((toPtr_eq_some (h.pos b hb)).1 h₁.chain.1)]
      rfl
    · have h₂ : Shape s₁ l (zs ++ q :: b :: ys) := by simpa using h₁
      have hhead : s₁.freeHead ≠ b := by
        rintro rfl
        have hchain := h₂.chain
        have hn := h₂.nodup
        rw [toPtr_of_ne_zero (h.pos _ hb)] at hchain
        cases zs with
        | nil =>
            obtain rfl := Option.some.inj hchain.1
            simp at hn
        | cons z zs =>
            obtain rfl := Option.some.inj hchain.1
            simp at hn
      have hpred : (fun p => (s₁.hdr p).nextFree == b) = fun p => decide (nextFree s₁ p = some b) := by
        funext p
        rw [nextFree, Bool.beq_eq_decide_eq]
        exact decide_eq_decide.2 (toPtr_eq_some (h.pos b hb)).symm
      rw [if_neg hhead, hpred, Linked.search_eq_find? h₂.chain h₂.length_le,
        h₂.chain.find?_before h₂.nodup]
      simp
  · obtain ⟨h₂, h₃, h₄⟩ := h₁.core_setLink hlast
      ((s.setHdr b fun x => { x with free := false }).hdr b).nextFree hc
    obtain ⟨h₅, h₆, h₇⟩ := hcore c hc
    exact ⟨h₂.trans h₅, h₃.trans h₆, h₄.trans h₇⟩

end Shape

end LighthOS
