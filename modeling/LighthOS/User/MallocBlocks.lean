/-
# Merging, splitting and growth of the user heap

The steps of `free`, `malloc` and `grow_arena` that change which blocks there are.
A merge and a cut give one block a new size and tell the block behind it
(`Shape.rebuild`), and the arena grows by a block behind the last one
(`Shape.growArena`).
-/

import LighthOS.User.MallocTiling

namespace LighthOS

open Tiling (Tiles)

namespace Shape

variable {s s' : Arena} {l fl as bs : List ℕ} {a b c : ℕ}

/-! ### Merging and splitting -/

theorem mem_second {x : ℕ} : x ∈ as ++ a :: c :: bs ↔ x = c ∨ x ∈ as ++ a :: bs := by
  simp only [List.mem_append, List.mem_cons]
  tauto

/-- The block behind the one at `a`, where the blocks `bs` begin there. -/
theorem nextPhys_of_tiles {t : Arena} {e : ℕ} (hbs : Tiles id (fun x => (s.hdr x).size) e bs s.arenaEnd)
    (hroom : ∀ x ∈ bs, hdrSize ≤ (s.hdr x).size) (he : a + (t.hdr a).size = e) (hend : t.arenaEnd = s.arenaEnd) :
    nextPhys t a = bs.head? := by
  unfold nextPhys
  simp only [he, hend]
  cases bs with
  | nil => exact if_neg (by simpa [Tiles] using hbs.ge)
  | cons d bs =>
      obtain ⟨hd, hbs⟩ := hbs
      have hle := hbs.le
      have hd' := hroom d List.mem_cons_self
      simp only [id, hdrSize] at hd hle hd'
      rw [if_pos (by omega), hd, List.head?_cons]

theorem nextPhys_eq (h : Shape s (as ++ a :: bs) fl) : nextPhys s a = bs.head? :=
  nextPhys_of_tiles h.tiles.split.2 (fun x hx => h.room x (by simp [hx])) rfl rfl

/-- The header of a block after a merge or a split: the block at `a` has the size
`v`, and the block `next` behind it knows. -/
def resize (s : Arena) (a v : ℕ) (next : Option ℕ) (x : ℕ) : Hdr :=
  { s.hdr x with
    size := if x = a then v else (s.hdr x).size
    prevSize := if next = some x then v else (s.hdr x).prevSize }

/-- **The blocks after one has got a new size**, and the one behind it knows. -/
theorem rebuild {start e p w v : ℕ} (hn : (as ++ a :: bs).Nodup)
    (has : Tiles id (fun x => (s.hdr x).size) start as a)
    (hbs : Tiles id (fun x => (s.hdr x).size) (a + v) bs e) (hpre : Prevs s p (as ++ [a]))
    (hpost : Prevs s w bs) (hhdr : ∀ x ∈ as ++ a :: bs, s'.hdr x = resize s a v bs.head? x) :
    Tiles id (fun x => (s'.hdr x).size) start (as ++ a :: bs) e ∧ Prevs s' p (as ++ a :: bs) := by
  obtain ⟨-, hn', hd⟩ := List.nodup_append.1 hn
  obtain ⟨ha, hn'⟩ := List.nodup_cons.1 hn'
  have hsize : ∀ x ∈ as ++ a :: bs, x ≠ a → (s'.hdr x).size = (s.hdr x).size := by
    intro x hx hxa
    rw [hhdr x hx]
    exact if_neg hxa
  have hprev : ∀ x ∈ as ++ a :: bs, bs.head? ≠ some x → (s'.hdr x).prevSize = (s.hdr x).prevSize := by
    intro x hx hxd
    rw [hhdr x hx]
    exact if_neg hxd
  have hv : (s'.hdr a).size = v := by
    rw [hhdr a (by simp)]
    exact if_pos rfl
  have has_ne : ∀ x ∈ as, x ≠ a := fun x hx => hd x hx a (by simp)
  have has_head : ∀ x ∈ as, bs.head? ≠ some x := fun x hx hb =>
    hd x hx x (by simp [List.mem_of_mem_head? hb]) rfl
  have hbs_ne : ∀ x ∈ bs, x ≠ a := fun x hx hxa => ha (hxa ▸ hx)
  obtain ⟨h₁, h₂, -⟩ := prevs_append.1 hpre
  constructor
  · refine Tiling.tiles_append.2 ⟨a, has.congr fun x hx => hsize x (by simp [hx]) (has_ne x hx), rfl, ?_⟩
    simp only [hv]
    exact hbs.congr fun x hx => hsize x (by simp [hx]) (hbs_ne x hx)
  · refine prevs_append.2 ⟨h₁.congr fun x hx =>
      ⟨hsize x (by simp [hx]) (has_ne x hx), hprev x (by simp [hx]) (has_head x hx)⟩, ?_, ?_⟩
    · rw [hprev a (by simp) fun hb => ha (List.mem_of_mem_head? hb), h₂]
      exact (lastSize_congr p fun x hx => hsize x (by simp [hx]) (has_ne x hx)).symm
    · rw [hv]
      cases bs with
      | nil => trivial
      | cons d ds =>
          refine ⟨?_, ?_⟩
          · rw [hhdr d (by simp)]
            exact if_pos rfl
          · rw [hsize d (by simp) (hbs_ne d (by simp))]
            refine hpost.2.congr fun x hx => ⟨hsize x (by simp [hx]) (hbs_ne x (by simp [hx])), ?_⟩
            refine hprev x (by simp [hx]) ?_
            rw [List.head?_cons, ne_eq, Option.some.injEq]
            rintro rfl
            exact (List.nodup_cons.1 hn').1 hx

/-- The end of a merge and of a cut: the block behind the one at `a` gets its size. -/
def tellNext (t : Arena) (a : ℕ) : Arena :=
  match nextPhys t a with
  | none => t
  | some after => t.setHdr after fun h => { h with prevSize := (t.hdr a).size }

theorem tellNext_spec {t : Arena} (hnext : nextPhys t a = bs.head?) (hsub : ∀ x ∈ bs, x ∈ l)
    (hspread : ∀ d ∈ bs, ∀ x ∈ l, x ≠ d → d + hdrSize ≤ x ∨ x + hdrSize ≤ d) :
    (tellNext t a).arenaStart = t.arenaStart ∧ (tellNext t a).arenaEnd = t.arenaEnd ∧
      (tellNext t a).freeHead = t.freeHead ∧
      (∀ x ∈ l, (tellNext t a).hdr x = resize t a (t.hdr a).size bs.head? x) ∧
      ∀ z, Outside l z → (tellNext t a).mem z = t.mem z := by
  have hsize : ∀ x, (if x = a then (t.hdr a).size else (t.hdr x).size) = (t.hdr x).size := fun x => by
    split_ifs with hxa
    · rw [hxa]
    · rfl
  unfold tellNext
  rw [hnext]
  cases hd : bs.head? with
  | none => exact ⟨rfl, rfl, rfl, fun x _ => by simp [resize, hsize], fun _ _ => rfl⟩
  | some d =>
      have hdmem : d ∈ bs := List.mem_of_mem_head? hd
      refine ⟨rfl, rfl, rfl, fun x hx => ?_, fun z hz => hz.setHdr (hsub d hdmem) t _⟩
      simp only
      rw [Arena.hdr_setHdr_of_spread (hspread d hdmem x hx), resize, hsize]
      by_cases hxd : x = d
      · simp [hxd]
      · simp [hxd, Ne.symm hxd]

/-- The headers after a block has taken in the one behind it. -/
theorem hdr_absorbBlock (h : Shape s (as ++ a :: c :: bs) fl) :
    (absorbBlock s a c).arenaStart = s.arenaStart ∧ (absorbBlock s a c).arenaEnd = s.arenaEnd ∧
      (absorbBlock s a c).freeHead = s.freeHead ∧
      (∀ x ∈ as ++ a :: c :: bs,
        (absorbBlock s a c).hdr x = resize s a ((s.hdr a).size + (s.hdr c).size) bs.head? x) ∧
      ∀ z, Outside (as ++ a :: c :: bs) z → (absorbBlock s a c).mem z = s.mem z := by
  obtain ⟨has, hca, hbs⟩ := h.tiles.split
  have hsum : ((s.hdr a).size + (s.hdr c).size) % 2 ^ 32 = (s.hdr a).size + (s.hdr c).size := by
    have h₁ := has.le
    have h₂ := hbs.le
    have h₃ := h.small
    simp only [id] at *
    exact Nat.mod_eq_of_lt (by omega)
  have ha : a ∈ as ++ a :: c :: bs := by simp
  have hhdr : ∀ y ∈ as ++ a :: c :: bs,
      (s.setHdr a fun h => { h with size := (h.size + (s.hdr c).size) % 2 ^ 32 }).hdr y
        = if y = a then { s.hdr a with size := (s.hdr a).size + (s.hdr c).size } else s.hdr y := fun y hy => by
    rw [h.hdr_setHdr ha hy, hsum]
  have hnext : nextPhys (s.setHdr a fun h => { h with size := (h.size + (s.hdr c).size) % 2 ^ 32 }) a = bs.head? :=
    nextPhys_of_tiles hbs (fun x hx => h.room x (by simp [hx]))
      (by rw [hhdr a ha, if_pos rfl]; exact (Nat.add_assoc _ _ _).symm) rfl
  obtain ⟨hstart, hend, hhead, htold, hmem⟩ := tellNext_spec (l := as ++ a :: c :: bs) hnext
    (fun x hx => by simp [hx]) fun d hd x hx hxd => h.apart (by simp [hd]) hx hxd.symm
  refine ⟨hstart, hend, hhead, fun x hx => (htold x hx).trans ?_, fun z hz => (hmem z hz).trans (hz.setHdr ha s _)⟩
  rw [resize, resize, hhdr a ha, hhdr x hx, if_pos rfl]
  split_ifs with hxa
  · rw [hxa]
  all_goals simp [hxa]

/-- **A block takes in the one behind it**, which is not in the free list. -/
theorem absorbBlock (h : Shape s (as ++ a :: c :: bs) fl) (hc : c ∉ fl) :
    Shape (absorbBlock s a c) (as ++ a :: bs) fl := by
  obtain ⟨hstart, hend, hhead, hhdr, -⟩ := h.hdr_absorbBlock
  have hsub : ∀ x ∈ as ++ a :: bs, x ∈ as ++ a :: c :: bs := fun x hx => mem_second.2 (Or.inr hx)
  have hn : (as ++ a :: bs).Nodup := h.nodupBlocks.sublist
    ((List.Sublist.refl as).append ((List.sublist_cons_self c bs).cons_cons a))
  obtain ⟨has, hca, hbs⟩ := h.tiles.split
  have hpre : Prevs s 0 ((as ++ [a]) ++ c :: bs) := by simpa using h.prevs
  obtain ⟨hpre, hpost⟩ := prevs_append.1 hpre
  rw [Nat.add_assoc] at hbs
  obtain ⟨htiles, hprevs⟩ := rebuild hn has hbs hpre hpost.2 fun x hx => hhdr x (hsub x hx)
  refine ⟨by rw [hstart, hend]; exact htiles, hprevs, fun x hx => ?_, fun x hx => h.aligned x (hsub x hx),
    by rw [hend]; exact h.alignedEnd, fun x hx => h.pos x (hsub x hx), by rw [hstart, hend]; exact h.small,
    ?_, h.nodup, fun x hx => (mem_second.1 (h.sub x hx)).resolve_left fun he => hc (he ▸ hx)⟩
  · have hroom := h.room x (hsub x hx)
    rw [hhdr x (hsub x hx), resize]
    simp only
    split_ifs with hxa
    · have := h.room a (by simp)
      omega
    · exact hroom
  · rw [hhead]
    refine h.chain.congr fun x hx => ?_
    rw [nextFree, nextFree, hhdr x (h.sub x hx)]
    rfl

section Cut

variable {needed : ℕ} (h : Shape s (as ++ b :: bs) fl) (hsize : needed + minBlock ≤ (s.hdr b).size)
  (h24 : hdrSize ≤ needed)

include h hsize h24

/-- The header of the rest is inside the block. -/
theorem cut_apart {x : ℕ} (hx : x ∈ as ++ b :: bs) :
    b + needed + hdrSize ≤ x ∨ x + hdrSize ≤ b + needed := by
  have hroom := h.room x hx
  simp only [minBlock, hdrSize] at hsize h24 hroom ⊢
  rcases h.tiles.eq_or_apart (by simp : b ∈ as ++ b :: bs) hx with rfl | hd | hd
  · omega
  · simp only [id] at hd
    omega
  · simp only [id] at hd
    omega

theorem cut_ne {x : ℕ} (hx : x ∈ as ++ b :: bs) : x ≠ b + needed := by
  have := h.cut_apart hsize h24 hx
  simp only [hdrSize] at this
  omega

/-- The headers after the cut, but for the size that the block behind the rest holds. -/
theorem hdr_cut {x : ℕ} (hx : x ∈ as ++ b :: (b + needed) :: bs) :
    ((s.setHdr (b + needed) fun _ => ⟨(s.hdr b).size - needed, needed, 0, true⟩).setHdr b
      fun y => { y with size := needed }).hdr x
      = if x = b + needed then ⟨(s.hdr b).size - needed, needed, 0, true⟩
        else if x = b then { s.hdr b with size := needed } else s.hdr x := by
  have hb : b ∈ as ++ b :: bs := by simp
  have hbt := h.cut_apart hsize h24 hb
  rcases mem_second.1 hx with rfl | hx'
  · rw [if_pos rfl, Arena.hdr_setHdr_of_apart _ _ _ (by omega), Arena.hdr_setHdr_self]
  · have hxt := h.cut_apart hsize h24 hx'
    rw [if_neg (h.cut_ne hsize h24 hx'), h.hdr_setHdr hb hx', Arena.hdr_setHdr_of_apart _ _ _ (by omega),
      Arena.hdr_setHdr_of_apart _ _ _ (by omega)]

/-- The headers after the cut. -/
theorem hdr_cutBlock :
    (cutBlock s b needed).arenaStart = s.arenaStart ∧ (cutBlock s b needed).arenaEnd = s.arenaEnd ∧
      (cutBlock s b needed).freeHead = s.freeHead ∧
      (∀ z, Outside (as ++ b :: (b + needed) :: bs) z → (cutBlock s b needed).mem z = s.mem z) ∧
      ∃ s₂ : Arena,
        (∀ x ∈ as ++ b :: (b + needed) :: bs, s₂.hdr x
          = if x = b + needed then ⟨(s.hdr b).size - needed, needed, 0, true⟩
            else if x = b then { s.hdr b with size := needed } else s.hdr x) ∧
        ∀ x ∈ as ++ b :: (b + needed) :: bs, (cutBlock s b needed).hdr x
          = resize s₂ (b + needed) ((s.hdr b).size - needed) bs.head? x := by
  have hhdr := fun x hx => h.hdr_cut hsize h24 (x := x) hx
  have htail : b + needed ∈ as ++ b :: (b + needed) :: bs := by simp
  have hold : ∀ x ∈ bs, x ∈ as ++ b :: bs := fun x hx => by simp [hx]
  have hsz := congrArg Hdr.size ((hhdr _ htail).trans (if_pos rfl))
  simp only [minBlock] at hsize
  have hnext : nextPhys ((s.setHdr (b + needed) fun _ => ⟨(s.hdr b).size - needed, needed, 0, true⟩).setHdr b
      fun y => { y with size := needed }) (b + needed) = bs.head? :=
    nextPhys_of_tiles h.tiles.split.2 (fun x hx => h.room x (hold x hx)) (by rw [hsz]; simp only [id]; omega) rfl
  obtain ⟨hstart, hend, hhead, htold, hmem⟩ := tellNext_spec (l := as ++ b :: (b + needed) :: bs) hnext
    (fun x hx => by simp [hx]) fun d hd x hx hxd => by
      rcases mem_second.1 hx with rfl | hx'
      · have := h.cut_apart hsize h24 (hold d hd)
        omega
      · exact h.apart (hold d hd) hx' hxd.symm
  exact ⟨hstart, hend, hhead, fun z hz => (hmem z hz).trans ((hz.setHdr (by simp) _ _).trans (hz.setHdr htail _ _)),
    _, hhdr, fun x hx => (htold x hx).trans (by rw [hsz])⟩

/-- What the cut leaves of the headers of the old blocks. -/
theorem fields_cutBlock {x : ℕ} (hx : x ∈ as ++ b :: bs) :
    ((cutBlock s b needed).hdr x).free = (s.hdr x).free ∧
      ((cutBlock s b needed).hdr x).nextFree = (s.hdr x).nextFree ∧
      ((cutBlock s b needed).hdr x).size = if x = b then needed else (s.hdr x).size := by
  obtain ⟨-, -, -, -, s₂, hhdr₂, hhdr⟩ := h.hdr_cutBlock hsize h24
  have hne := h.cut_ne hsize h24 hx
  have hmem : x ∈ as ++ b :: (b + needed) :: bs := mem_second.2 (Or.inr hx)
  rw [hhdr x hmem, resize]
  simp only [if_neg hne]
  rw [hhdr₂ x hmem, if_neg hne]
  split_ifs with hxb
  · subst hxb
    exact ⟨rfl, rfl, rfl⟩
  · exact ⟨rfl, rfl, rfl⟩

theorem tiles_cutBlock :
    Tiles id (fun x => ((cutBlock s b needed).hdr x).size) s.arenaStart (as ++ b :: (b + needed) :: bs) s.arenaEnd ∧
      Prevs (cutBlock s b needed) 0 (as ++ b :: (b + needed) :: bs) := by
  obtain ⟨-, -, -, -, s₂, hhdr₂, hhdr⟩ := h.hdr_cutBlock hsize h24
  have hnodup : (as ++ [b] ++ (b + needed) :: bs).Nodup := by
    rw [List.nodup_middle, List.nodup_cons]
    refine ⟨fun hmem => ?_, by simpa using h.nodupBlocks⟩
    exact h.cut_ne hsize h24 (by simpa using hmem) rfl
  obtain ⟨hnas, hnbs, hd⟩ := List.nodup_append.1 h.nodupBlocks
  have hkeep : ∀ x ∈ as ++ b :: bs, x ≠ b → s₂.hdr x = s.hdr x := fun x hx hxb => by
    rw [hhdr₂ x (mem_second.2 (Or.inr hx)), if_neg (h.cut_ne hsize h24 hx), if_neg hxb]
  have has₂ : ∀ x ∈ as, s₂.hdr x = s.hdr x := fun x hx => hkeep x (by simp [hx]) (hd x hx b (by simp))
  have hbs₂ : ∀ x ∈ bs, s₂.hdr x = s.hdr x := fun x hx =>
    hkeep x (by simp [hx]) fun hxb => (List.nodup_cons.1 hnbs).1 (hxb ▸ hx)
  have hb₂ : s₂.hdr b = { s.hdr b with size := needed } := by
    rw [hhdr₂ b (by simp), if_neg (h.cut_ne hsize h24 (by simp)), if_pos rfl]
  have ht₂ : s₂.hdr (b + needed) = ⟨(s.hdr b).size - needed, needed, 0, true⟩ := by
    rw [hhdr₂ _ (by simp), if_pos rfl]
  obtain ⟨has, hbs⟩ := h.tiles.split
  obtain ⟨hpre, hprevb, hpost⟩ := prevs_append.1 h.prevs
  simp only [minBlock, hdrSize] at hsize h24
  rw [← List.singleton_append, ← List.append_assoc]
  refine rebuild (s := s₂) (v := (s.hdr b).size - needed) (w := (s.hdr b).size) hnodup ?_ ?_ ?_ ?_
    fun x hx => hhdr x (by simpa using hx)
  · refine Tiling.tiles_append.2 ⟨b, has.congr fun x hx => by rw [has₂ x hx], rfl, ?_⟩
    simp only [hb₂]
    rfl
  · rw [show b + needed + ((s.hdr b).size - needed) = b + (s.hdr b).size by omega]
    exact hbs.congr fun x hx => by rw [hbs₂ x hx]
  · refine prevs_append.2 ⟨prevs_append.2 ⟨?_, ?_, trivial⟩, ?_, trivial⟩
    · exact hpre.congr fun x hx => by rw [has₂ x hx]; exact ⟨rfl, rfl⟩
    · rw [hb₂, lastSize_congr (s := s) 0 fun x hx => by rw [has₂ x hx]]
      exact hprevb
    · rw [ht₂, lastSize, List.getLast?_concat]
      simp [hb₂]
  · exact hpost.congr fun x hx => by rw [hbs₂ x hx]; exact ⟨rfl, rfl⟩

/-- **A block is cut** in two. -/
theorem cutBlock (h8 : needed % 8 = 0) :
    Shape (cutBlock s b needed) (as ++ b :: (b + needed) :: bs) fl ∧
      ∀ x ∈ as ++ b :: bs, ((cutBlock s b needed).hdr x).free = (s.hdr x).free ∧
        ((cutBlock s b needed).hdr x).size = if x = b then needed else (s.hdr x).size := by
  obtain ⟨hstart, hend, hhead, -, s₂, -, hhdr⟩ := h.hdr_cutBlock hsize h24
  obtain ⟨htiles, hprevs⟩ := h.tiles_cutBlock hsize h24
  have hfields := fun x hx => h.fields_cutBlock hsize h24 (x := x) hx
  have hbmem : b ∈ as ++ b :: bs := by simp
  simp only [minBlock, hdrSize] at hsize h24
  refine ⟨⟨by rw [hstart, hend]; exact htiles, hprevs, fun x hx => ?_, fun x hx => ?_,
    by rw [hend]; exact h.alignedEnd, fun x hx => ?_, by rw [hstart, hend]; exact h.small, ?_, h.nodup,
    fun x hx => mem_second.2 (Or.inr (h.sub x hx))⟩, fun x hx => ⟨(hfields x hx).1, (hfields x hx).2.2⟩⟩
  · rcases mem_second.1 hx with rfl | hx
    · rw [hhdr _ (by simp), resize]
      simp only [if_true, hdrSize]
      omega
    · rw [(hfields x hx).2.2]
      split_ifs
      · exact h24
      · exact h.room x hx
  · rcases mem_second.1 hx with rfl | hx
    · have := h.aligned b hbmem
      omega
    · exact h.aligned x hx
  · rcases mem_second.1 hx with rfl | hx
    · have := h.pos b hbmem
      omega
    · exact h.pos x hx
  · rw [hhead]
    refine h.chain.congr fun x hx => ?_
    rw [nextFree, nextFree, (hfields x (h.sub x hx)).2.1]

end Cut

/-! ### Growth -/

/-- The blocks in the order of `next_block`. -/
theorem segmentPhys {start : ℕ} (ht : Tiles id (fun x => (s.hdr x).size) start l s.arenaEnd)
    (hr : ∀ a ∈ l, hdrSize ≤ (s.hdr a).size) :
    Linked.Segment (nextPhys s) (if start < s.arenaEnd then some start else none) l none := by
  induction l generalizing start with
  | nil => exact if_neg (by simpa [Tiles] using ht.ge)
  | cons a l ih =>
      obtain ⟨rfl, ht⟩ := ht
      have hle := ht.le
      have hroom := hr a List.mem_cons_self
      simp only [hdrSize, id] at hle hroom
      exact ⟨if_pos (by simp only [id]; omega), ih ht fun b hb => hr b (List.mem_cons_of_mem a hb)⟩

/-- Blocks below `r` do not see a header written at `r`. -/
theorem hdr_setHdr_end (h : Shape s l fl) {r : ℕ} (hr : s.arenaEnd ≤ r) {t : Arena} (f : Hdr → Hdr)
    (hc : c ∈ l) : (t.setHdr r f).hdr c = t.hdr c := by
  refine Arena.hdr_setHdr_of_apart t r f (Or.inr ?_)
  have h₁ := (h.tiles.bounds hc).2
  have h₂ := h.room c hc
  simp only [id] at h₁
  omega

/-- **The walk through the arena** finds its blocks. -/
theorem arenaBlocks_eq (h : Shape s l fl) {t : Arena} (hstart : t.arenaStart = s.arenaStart)
    (hend : t.arenaEnd = s.arenaEnd) (ht : ∀ a ∈ l, t.hdr a = s.hdr a) : arenaBlocks t = some l := by
  have hseg : Linked.Segment (nextPhys t) (if t.arenaStart < t.arenaEnd then some t.arenaStart else none)
      l none := by
    refine segmentPhys ?_ fun a ha => by rw [ht a ha]; exact h.room a ha
    rw [hstart, hend]
    exact h.tiles.congr fun a ha => by rw [ht a ha]
  have hlen : l.length ≤ addressSpace := by
    have h₁ := h.tiles.length_mul_le (m := 1) fun a ha => Nat.le_trans (by decide) (h.room a ha)
    have := h.small
    simp only [addressSpace]
    omega
  exact Linked.nodes_eq hseg hlen

/-- The search of `grow_arena` for the last block. -/
theorem lastBlock_eq (h : Shape s l fl) (hl : l ≠ []) {t : Arena} (hstart : t.arenaStart = s.arenaStart)
    (hend : t.arenaEnd = s.arenaEnd) (ht : ∀ a ∈ l, t.hdr a = s.hdr a) :
    (lastBlock t).map (fun a => (t.hdr a).size) = some (lastSize s 0 l) := by
  have hlast := List.getLast_mem hl
  rw [lastBlock, h.arenaBlocks_eq hstart hend ht, lastSize]
  simp [List.getLast?_eq_some_getLast hl, ht _ hlast]

/-- The arena `s'` has a free block of `R` bytes at `r`, behind the blocks of `s`. -/
structure Grown (s s' : Arena) (l : List ℕ) (r R : ℕ) : Prop where
  tiles : Tiles id (fun x => (s.hdr x).size) s'.arenaStart l r
  small : r + R < s'.arenaStart + 2 ^ 32
  mem : ∀ z < s.arenaEnd, s'.mem z = s.mem z
  arenaEnd : s'.arenaEnd = r + R
  freeHead : s'.freeHead = s.freeHead
  old : ∀ x ∈ l, s'.hdr x = s.hdr x
  new : s'.hdr r = ⟨R, lastSize s 0 l, 0, true⟩

/-- The blocks with the new one, which is not in the free list yet. -/
theorem Grown.shape {r R : ℕ} (hg : Grown s s' l r R) (h : Shape s l fl) (hr : r ≠ 0 ∧ r % 8 = 0)
    (hR : hdrSize ≤ R ∧ R % 8 = 0) : Shape s' (l ++ [r]) fl := by
  have hcases : ∀ x ∈ l ++ [r], x ∈ l ∨ x = r := fun x hx => by simpa using hx
  refine ⟨?_, ?_, fun x hx => ?_, fun x hx => ?_, by rw [hg.arenaEnd]; omega, fun x hx => ?_,
    by rw [hg.arenaEnd]; exact hg.small, ?_, h.nodup, fun x hx => by simp [h.sub x hx]⟩
  · rw [hg.arenaEnd]
    refine Tiling.tiles_append.2 ⟨r, hg.tiles.congr fun x hx => by rw [hg.old x hx], rfl, ?_⟩
    simp only [hg.new]
    rfl
  · refine prevs_append.2 ⟨h.prevs.congr fun x hx => by rw [hg.old x hx]; exact ⟨rfl, rfl⟩, ?_, trivial⟩
    rw [hg.new]
    exact (lastSize_congr 0 fun x hx => by rw [hg.old x hx]).symm
  · rcases hcases x hx with hx | rfl
    · rw [hg.old x hx]
      exact h.room x hx
    · rw [hg.new]
      exact hR.1
  · rcases hcases x hx with hx | rfl
    · exact h.aligned x hx
    · exact hr.2
  · rcases hcases x hx with hx | rfl
    · exact h.pos x hx
    · exact hr.1
  · rw [hg.freeHead]
    exact h.chain.congr fun x hx => by rw [nextFree, nextFree, hg.old x (h.sub x hx)]

/-- Where the new block is: a first one may be anywhere. -/
theorem grow_place (h : Shape s l fl) {r : ℕ} (hraw : if s.arenaStart = 0 then r ≠ 0 ∧ r % 8 = 0 else r = s.arenaEnd) :
    (s.arenaStart = 0 → l = []) ∧ (r ≠ 0 ∧ r % 8 = 0) ∧ s.arenaEnd ≤ r := by
  have hnil : s.arenaStart = 0 → l = [] ∧ s.arenaEnd = 0 := by
    intro h₀
    cases l with
    | nil => exact ⟨rfl, by simpa [Tiles, h₀] using h.tiles.symm⟩
    | cons a l => exact absurd (h.tiles.1.trans h₀) (h.pos a (by simp))
  refine ⟨fun h₀ => (hnil h₀).1, ?_⟩
  split_ifs at hraw with h₀
  · exact ⟨hraw, by rw [(hnil h₀).2]; exact Nat.zero_le r⟩
  · have := h.tiles.le
    exact ⟨⟨by omega, by rw [hraw]; exact h.alignedEnd⟩, hraw.ge⟩

/-- `grow_arena` up to the free list. -/
theorem growArena_eq (h : Shape s l fl) (hl : s.arenaStart ≠ 0 → l ≠ []) {bytes r R : ℕ}
    (hraw : if s.arenaStart = 0 then r ≠ 0 ∧ r % 8 = 0 else r = s.arenaEnd)
    (hround : (bytes + 4095) % 2 ^ 32 / 4096 * 4096 = R) (hsmall : s.arenaEnd - s.arenaStart + R < 2 ^ 32) :
    ∃ s', LighthOS.growArena s bytes (some r) = some (true, LighthOS.freelistInsert s' r) ∧ Grown s s' l r R := by
  obtain ⟨hnil, -, hr⟩ := h.grow_place hraw
  unfold LighthOS.growArena
  simp only [hround]
  have hhdr := fun x hx => h.hdr_setHdr_end (c := x) hr (t := s) (fun _ => ⟨R, 0, 0, true⟩) hx
  generalize hs₁ : (s.setHdr r fun _ => ⟨R, 0, 0, true⟩) = s₁ at hhdr
  have hr₁ : s₁.hdr r = ⟨R, 0, 0, true⟩ := by rw [← hs₁, Arena.hdr_setHdr_self]
  have hmem : ∀ z < s.arenaEnd, s₁.mem z = s.mem z := fun z hz => by
    rw [← hs₁, Arena.setHdr_mem_of_outside _ _ _ (by omega)]
  obtain ⟨hstart, hend, hhead⟩ : s₁.arenaStart = s.arenaStart ∧ s₁.arenaEnd = s.arenaEnd ∧
      s₁.freeHead = s.freeHead := by
    rw [← hs₁]
    exact ⟨rfl, rfl, rfl⟩
  rw [hstart, hend]
  split_ifs at hraw ⊢ with h₀ h₁
  · obtain rfl := hnil h₀
    exact ⟨_, rfl, rfl, by simp only; omega, hmem, rfl, hhead, by simp, hr₁⟩
  · obtain ⟨last, hlast, hsz⟩ := Option.map_eq_some_iff.1 (h.lastBlock_eq (hl h₀) hstart hend hhdr)
    have hle := h.tiles.le
    rw [hlast]
    refine ⟨_, rfl, ?_, ?_, fun z hz => ?_, rfl, hhead, fun x hx => ?_, ?_⟩
    · rw [hraw]
      exact (congrArg (fun a => Tiles id (fun x => (s.hdr x).size) a l s.arenaEnd) hstart).mpr h.tiles
    · exact hstart ▸ (by omega : r + R < s.arenaStart + 2 ^ 32)
    · exact (Arena.setHdr_mem_of_outside s₁ r (fun y => { y with prevSize := (s₁.hdr last).size })
        (by omega)).trans (hmem z hz)
    · exact (h.hdr_setHdr_end hr (t := s₁) (fun y => { y with prevSize := (s₁.hdr last).size }) hx).trans (hhdr x hx)
    · rw [← hsz]
      exact (Arena.hdr_setHdr_self s₁ r fun y => { y with prevSize := (s₁.hdr last).size }).trans (by rw [hr₁])
  · exact absurd hraw.symm h₁

/-- **The arena grows** by a free block at its end. -/
theorem growArena (h : Shape s l fl) (hl : s.arenaStart ≠ 0 → l ≠ []) {bytes r : ℕ}
    (hraw : if s.arenaStart = 0 then r ≠ 0 ∧ r % 8 = 0 else r = s.arenaEnd)
    (hbytes : 0 < bytes) (hbig : bytes + 4095 < 2 ^ 32)
    (hsmall : s.arenaEnd - s.arenaStart + (bytes + 4095) / 4096 * 4096 < 2 ^ 32) :
    ∃ s', growArena s bytes (some r) = some (true, s') ∧ Shape s' (l ++ [r]) (r :: fl) ∧ r ∉ l ∧
      (∀ x ∈ l, (s'.hdr x).free = (s.hdr x).free ∧ (s'.hdr x).size = (s.hdr x).size) ∧
      ((s'.hdr r).free = true ∧ (s'.hdr r).size = (bytes + 4095) / 4096 * 4096) ∧
      ∀ z < s.arenaEnd, s'.mem z = s.mem z := by
  obtain ⟨-, hr, hend⟩ := h.grow_place hraw
  obtain ⟨s₂, hgrow, hg⟩ := h.growArena_eq hl hraw (by rw [Nat.mod_eq_of_lt hbig]) hsmall
  have h₂ := hg.shape h hr ⟨by simp only [hdrSize]; omega, by omega⟩
  have hnot : r ∉ l := fun hx => by
    have h₁ := (h.tiles.bounds hx).2
    have h₂ := h.room r hx
    simp only [id, hdrSize] at h₁ h₂
    omega
  refine ⟨_, hgrow, h₂.freelistInsert (by simp) fun hx => hnot (h.sub r hx), hnot, fun x hx => ?_, ?_,
    fun z hz => ?_⟩
  · have hne : x ≠ r := by
      rintro rfl
      exact hnot hx
    rw [h₂.hdr_freelistInsert (by simp) (by simp [hx]), if_neg hne, hg.old x hx]
    exact ⟨rfl, rfl⟩
  · rw [h₂.hdr_freelistInsert (by simp) (by simp), if_pos rfl, hg.new]
    exact ⟨rfl, rfl⟩
  · exact (Arena.setHdr_mem_of_outside s₂ r (fun y => { y with free := true, nextFree := s₂.freeHead })
      (by omega)).trans (hg.mem z hz)

end Shape

end LighthOS
