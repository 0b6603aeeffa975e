/-
# The calls of the user heap

`malloc` and `free` keep the arena in order (`ArenaOk`).  `Effect` says what a call
does for its callers: one block may be given back and one handed out, and every
other block in use keeps its size and its bytes.
-/

import LighthOS.User.MallocBlocks

namespace LighthOS

open Tiling (Tiles)

/-- The arena is in order: `l` are its blocks, `fl` the free ones. -/
structure ArenaOk (s : Arena) (l fl : List ℕ) : Prop where
  shape : Shape s l fl
  flags : FlagsOk s l fl
  nonempty : s.arenaStart ≠ 0 → l ≠ []

/-- The block at `x` is in use. -/
def InUse (s : Arena) (l : List ℕ) (x : ℕ) : Prop := x ∈ l ∧ (s.hdr x).free = false

/-- What a call does to the blocks in use: those of `gone` are given back or change their
size, those of `new` are handed out. -/
structure Effect (s : Arena) (l : List ℕ) (s' : Arena) (l' : List ℕ) (gone new : Set ℕ) : Prop where
  used : ∀ x, InUse s' l' x ↔ InUse s l x ∧ x ∉ gone ∨ x ∈ new
  size : ∀ x, InUse s l x → x ∉ gone → (s'.hdr x).size = (s.hdr x).size
  bytes : ∀ x, InUse s l x → x ∉ gone → ∀ z, x + hdrSize ≤ z → z < x + (s.hdr x).size →
    s'.mem z = s.mem z

namespace Effect

variable {s s₁ s₂ : Arena} {l l₁ l₂ fl : List ℕ} {gone gone₁ gone₂ new new₁ new₂ : Set ℕ} {b : ℕ}

theorem refl (s : Arena) (l : List ℕ) : Effect s l s l ∅ ∅ :=
  ⟨by simp, fun _ _ _ => rfl, fun _ _ _ _ _ _ => rfl⟩

/-- A block in use that is handed out again. -/
theorem refl_of_inUse (hb : InUse s l b) : Effect s l s l {b} {b} := by
  refine ⟨fun x => ?_, fun _ _ _ => rfl, fun _ _ _ _ _ _ => rfl⟩
  rw [Set.mem_singleton_iff]
  by_cases hxb : x = b
  · simp [hxb, hb]
  · simp [hxb]

/-- **One step after another.** -/
theorem trans (h₁ : Effect s l s₁ l₁ gone₁ new₁) (h₂ : Effect s₁ l₁ s₂ l₂ gone₂ new₂) :
    Effect s l s₂ l₂ (gone₁ ∪ gone₂) (new₁ \ gone₂ ∪ new₂) := by
  have hu : ∀ x, InUse s l x → x ∉ gone₁ ∪ gone₂ → InUse s₁ l₁ x ∧ x ∉ gone₁ ∧ x ∉ gone₂ := by
    intro x hx hg
    rw [Set.mem_union, not_or] at hg
    exact ⟨(h₁.used x).2 (Or.inl ⟨hx, hg.1⟩), hg⟩
  refine ⟨fun x => ?_, fun x hx hg => ?_, fun x hx hg z hz₁ hz₂ => ?_⟩
  · rw [h₂.used x, h₁.used x, Set.mem_union, Set.mem_union, Set.mem_sdiff]
    tauto
  · obtain ⟨hx₁, hg₁, hg₂⟩ := hu x hx hg
    rw [h₂.size x hx₁ hg₂, h₁.size x hx hg₁]
  · obtain ⟨hx₁, hg₁, hg₂⟩ := hu x hx hg
    rw [h₂.bytes x hx₁ hg₂ z hz₁ (by rw [h₁.size x hx hg₁]; exact hz₂), h₁.bytes x hx hg₁ z hz₁ hz₂]

/-- Only blocks that were in use can be given back. -/
theorem of_iff (h : Effect s l s₁ l₁ gone₁ new₁) (hg : ∀ x, InUse s l x → (x ∈ gone₁ ↔ x ∈ gone))
    (hn : ∀ x, x ∈ new₁ ↔ x ∈ new) : Effect s l s₁ l₁ gone new := by
  refine ⟨fun x => ?_, fun x hx hx' => h.size x hx (by rwa [hg x hx]), fun x hx hx' =>
    h.bytes x hx (by rwa [hg x hx])⟩
  rw [h.used x, hn x]
  exact or_congr_left (and_congr_right fun hx => not_congr (hg x hx))

/-- **A mark changes**, and nothing else but links of the free list. -/
theorem of_mark (h : Shape s l fl) (hb : b ∈ l) {v : Bool}
    (hsize : ∀ x ∈ l, (s₁.hdr x).size = (s.hdr x).size)
    (hfree : ∀ x ∈ l, (s₁.hdr x).free = if x = b then v else (s.hdr x).free)
    (hmem : ∀ z, Outside l z → s₁.mem z = s.mem z) : Effect s l s₁ l {b} {x | x = b ∧ v = false} := by
  refine ⟨fun x => ?_, fun x hx _ => hsize x hx.1, fun x hx _ z hz₁ hz₂ =>
    hmem z (h.outside_payload hx.1 hz₁ hz₂)⟩
  rw [Set.mem_singleton_iff, Set.mem_ofPred_eq]
  constructor
  · rintro ⟨hx, hf⟩
    rw [hfree x hx] at hf
    split_ifs at hf with hxb
    · exact Or.inr ⟨hxb, hf⟩
    · exact Or.inl ⟨⟨hx, hf⟩, hxb⟩
  · rintro (⟨⟨hx, hf⟩, hxb⟩ | ⟨rfl, rfl⟩)
    · exact ⟨hx, by rw [hfree x hx, if_neg hxb, hf]⟩
    · exact ⟨hb, by rw [hfree x hb, if_pos rfl]⟩

end Effect

/-- A call has handed out the block at `b`, of at least `needed` bytes. -/
structure Handed (s : Arena) (l : List ℕ) (s' : Arena) (l' : List ℕ) (b needed : ℕ) : Prop where
  effect : Effect s l s' l' ∅ {b}
  fresh : ¬InUse s l b
  room : needed ≤ (s'.hdr b).size

/-- What `sys_sbrk` may return for `rounded` bytes: `-1`, or memory behind the arena that
keeps it below `2^32` bytes.  The first piece of the arena is anywhere, aligned. -/
def SbrkOk (s : Arena) (rounded : ℕ) : Option ℕ → Prop
  | none => True
  | some r => (if s.arenaStart = 0 then r ≠ 0 ∧ r % 8 = 0 else r = s.arenaEnd) ∧
      s.arenaEnd - s.arenaStart + rounded < 2 ^ 32

/-- The bytes that `grow_arena` asks for on a call for `n` bytes, in 32 bits. -/
def extension (n : ℕ) : ℕ := (neededBytes n + 4095) % 2 ^ 32 / 4096 * 4096

/-- A request of `n` bytes finds a block in the free list `fl`. -/
def FindsBlock (s : Arena) (fl : List ℕ) (n : ℕ) : Prop := ∃ a ∈ fl, neededBytes n ≤ (s.hdr a).size

namespace ArenaOk

variable {s s' : Arena} {l fl as bs xs ys : List ℕ} {a b c : ℕ}

theorem mem_free (h : ArenaOk s l fl) (ha : a ∈ fl) : a ∈ l ∧ (s.hdr a).free = true :=
  ⟨h.shape.sub a ha, (h.flags a (h.shape.sub a ha)).2 ha⟩

/-- The other blocks of the free list. -/
theorem mem_rest (h : Shape s l (xs ++ b :: ys)) (x : ℕ) : x ∈ xs ++ ys ↔ x ∈ xs ++ b :: ys ∧ x ≠ b := by
  have hn := h.nodup
  rw [List.nodup_middle, List.nodup_cons] at hn
  simp only [List.mem_append, List.mem_cons] at hn ⊢
  constructor
  · intro hx
    refine ⟨by tauto, ?_⟩
    rintro rfl
    exact hn.1 hx
  · rintro ⟨hx | hx | hx, hne⟩
    · exact Or.inl hx
    · exact absurd hx hne
    · exact Or.inr hx

/-- A block leaves the free list and is marked. -/
theorem of_remove (h : ArenaOk s l (xs ++ b :: ys)) (hs : Shape s' l (xs ++ ys))
    (hstart : s'.arenaStart = s.arenaStart)
    (hfree : ∀ c ∈ l, (s'.hdr c).free = if c = b then false else (s.hdr c).free) :
    ArenaOk s' l (xs ++ ys) := by
  refine ⟨hs, fun c hc => ?_, fun hne => h.nonempty (hstart ▸ hne)⟩
  rw [hfree c hc, mem_rest h.shape]
  split_ifs with hcb
  · simp [hcb]
  · rw [h.flags c hc]
    exact ⟨fun hx => ⟨hx, hcb⟩, fun hx => hx.1⟩

/-- A block of the free list is not in use. -/
theorem not_inUse (h : ArenaOk s l fl) (ha : a ∈ fl) : ¬InUse s l a := fun hu => by
  have := (h.mem_free ha).2
  rw [hu.2] at this
  cases this

/-- A block in use is not in the free list. -/
theorem not_mem_free (h : ArenaOk s l fl) (ha : InUse s l a) : a ∉ fl := fun hx => h.not_inUse hx ha

theorem ne_of_free (h : ArenaOk s l fl) (ha : InUse s l a) (hc : c ∈ fl) : a ≠ c := by
  rintro rfl
  exact h.not_inUse hc ha

/-- **The block that `malloc` has found** leaves the free list. -/
theorem take (h : ArenaOk s l (xs ++ b :: ys)) :
    let s₂ := (setLink s xs.getLast? (s.hdr b).nextFree).setHdr b fun x => { x with free := false }
    ArenaOk s₂ l (xs ++ ys) ∧ Effect s l s₂ l {b} {b} ∧ (s₂.hdr b).size = (s.hdr b).size := by
  intro s₂
  have hb : b ∈ l := h.shape.sub b (by simp)
  have hlast : ∀ q ∈ xs.getLast?, q ∈ l := fun q hq => h.shape.sub q (by simp [List.mem_of_getLast? hq])
  have h₁ := h.shape.setLink
  obtain ⟨hstart, -⟩ := setLink_arena s xs.getLast? (s.hdr b).nextFree
  have hcore : ∀ c ∈ l, (s₂.hdr c).size = (s.hdr c).size ∧
      (s₂.hdr c).free = if c = b then false else (s.hdr c).free := by
    intro c hc
    obtain ⟨hsize, -, hfree⟩ := h.shape.core_setLink hlast (s.hdr b).nextFree hc
    simp only [s₂]
    rw [h₁.hdr_setHdr hb hc, ← hsize, ← hfree]
    split_ifs with hcb
    · rw [hcb]
      exact ⟨rfl, rfl⟩
    · exact ⟨rfl, rfl⟩
  have heff := Effect.of_mark h.shape hb (fun c hc => (hcore c hc).1) (fun c hc => (hcore c hc).2)
    fun z hz => (hz.setHdr hb _ _).trans (hz.setLink hlast s _)
  rw [show {x | x = b ∧ false = false} = ({b} : Set ℕ) by simp] at heff
  exact ⟨h.of_remove (h₁.setFree hb false) hstart fun c hc => (hcore c hc).2, heff, (hcore b hb).1⟩

/-- **`maybe_split`** of a block in use. -/
theorem maybeSplit (h : ArenaOk s l fl) (hb : InUse s l b) {needed : ℕ} (hfit : needed ≤ (s.hdr b).size)
    (h8 : needed % 8 = 0) (h24 : hdrSize ≤ needed) :
    ∃ l' fl', ArenaOk (maybeSplit s b needed) l' fl' ∧ needed ≤ ((maybeSplit s b needed).hdr b).size ∧
      Effect s l (maybeSplit s b needed) l' {b} {b} := by
  obtain ⟨hbl, hbfree⟩ := hb
  unfold LighthOS.maybeSplit
  split_ifs with hsmall
  · exact ⟨l, fl, h, hfit, Effect.refl_of_inUse ⟨hbl, hbfree⟩⟩
  rw [Nat.not_lt] at hsmall
  obtain ⟨as, bs, rfl⟩ := List.append_of_mem hbl
  obtain ⟨hcut, hold⟩ := h.shape.cutBlock hsmall h24 h8
  obtain ⟨-, -, -, hmem, -⟩ := h.shape.hdr_cutBlock hsmall h24
  have hne : ∀ x ∈ as ++ b :: bs, x ≠ b + needed := fun x hx => h.shape.cut_ne hsmall h24 hx
  have hcases : ∀ x ∈ as ++ b :: (b + needed) :: bs, x = b + needed ∨ x ∈ as ++ b :: bs := fun x => Shape.mem_second.1
  have hsub : ∀ x ∈ as ++ b :: bs, x ∈ as ++ b :: (b + needed) :: bs := fun x hx => Shape.mem_second.2 (Or.inr hx)
  have htail : b + needed ∈ as ++ b :: (b + needed) :: bs := by simp
  have htailnot : b + needed ∉ fl := fun hx => hne _ (h.shape.sub _ hx) rfl
  have hfree : ∀ x ∈ as ++ b :: (b + needed) :: bs,
      ((freelistInsert (cutBlock s b needed) (b + needed)).hdr x).free
        = if x = b + needed then true else (s.hdr x).free := by
    intro x hx
    rw [hcut.hdr_freelistInsert htail hx]
    split_ifs with hxt
    · rfl
    · exact (hold x ((hcases x hx).resolve_left hxt)).1
  have hsize : ∀ x ∈ as ++ b :: bs, ((freelistInsert (cutBlock s b needed) (b + needed)).hdr x).size
      = if x = b then needed else (s.hdr x).size := by
    intro x hx
    rw [hcut.hdr_freelistInsert htail (hsub x hx), if_neg (hne x hx), (hold x hx).2]
  refine ⟨_, _, ⟨hcut.freelistInsert htail htailnot, fun x hx => ?_, fun _ => by simp⟩, ?_,
    ⟨fun x => ?_, fun x hx hg => ?_, fun x hx hg z hz₁ hz₂ => ?_⟩⟩
  · rw [hfree x hx, List.mem_cons]
    split_ifs with hxt
    · simp [hxt]
    · rw [h.flags x ((hcases x hx).resolve_left hxt)]
      exact ⟨Or.inr, fun hx => hx.resolve_left hxt⟩
  · rw [hsize b (by simp), if_pos rfl]
  · constructor
    · rintro ⟨hx, hf⟩
      rw [hfree x hx] at hf
      split_ifs at hf with hxt
      by_cases hxb : x = b
      · exact Or.inr hxb
      · exact Or.inl ⟨⟨(hcases x hx).resolve_left hxt, hf⟩, hxb⟩
    · rintro (⟨⟨hx, hf⟩, -⟩ | rfl)
      · exact ⟨hsub x hx, by rw [hfree x (hsub x hx), if_neg (hne x hx), hf]⟩
      · exact ⟨by simp, by rw [hfree x (by simp), if_neg (hne x (by simp)), hbfree]⟩
  · rw [hsize x hx.1, if_neg (show x ≠ b from hg)]
  · -- the new header is inside the block `b`
    have hz : Outside (as ++ b :: (b + needed) :: bs) z := by
      intro c hc
      rcases hcases c hc with rfl | hc
      · simp only [minBlock, hdrSize] at hsmall h24 ⊢
        rcases h.shape.tiles.eq_or_apart hx.1 (by simp : b ∈ as ++ b :: bs) with heq | hd | hd
        · exact absurd heq hg
        · simp only [id] at hd
          omega
        · simp only [id, hdrSize] at hd hz₁
          omega
      · exact h.shape.outside_payload hx.1 hz₁ hz₂ c hc
    exact (hz.freelistInsert htail _).trans (hmem z hz)

/-- **The scan of `malloc`** takes a block that is large enough, or there is none. -/
theorem mallocFit (h : ArenaOk s l fl) {needed : ℕ} (h8 : needed % 8 = 0) (h24 : hdrSize ≤ needed) :
    (mallocFit s needed = some none ∧ ∀ a ∈ fl, (s.hdr a).size < needed) ∨
    ∃ b s' l' fl', mallocFit s needed = some (some (b + hdrSize, s')) ∧ ArenaOk s' l' fl' ∧
      Handed s l s' l' b needed := by
  unfold LighthOS.mallocFit
  rcases Linked.searchPrev_cases (fun b => decide (needed ≤ (s.hdr b).size)) none h.shape.chain
    h.shape.length_le with ⟨hs, hnone⟩ | ⟨xs, b, ys, rfl, hb, -, hs⟩
  · rw [hs]
    refine Or.inl ⟨rfl, fun a ha => ?_⟩
    simpa using hnone a ha
  · have hprev : (some <$> xs.getLast?).getD none = xs.getLast? := by cases xs.getLast? <;> rfl
    obtain ⟨hok, heff, hsize⟩ := h.take
    have huse : InUse _ l b := (heff.used b).2 (Or.inr rfl)
    obtain ⟨l', fl', hok', hroom, heff'⟩ :=
      hok.maybeSplit huse (by rw [hsize]; exact of_decide_eq_true hb) h8 h24
    have hfresh : ¬InUse s l b := h.not_inUse (by simp)
    rw [hs, hprev]
    refine Or.inr ⟨b, _, l', fl', rfl, hok', (heff.trans heff').of_iff (fun x hx => ?_) (by simp), hfresh, hroom⟩
    have hne : x ≠ b := by
      rintro rfl
      exact hfresh hx
    simp [hne]

/-- **`grow_arena`** adds a free block and leaves the others alone. -/
theorem growArena (h : ArenaOk s l fl) {bytes r : ℕ} (hpos : 0 < bytes) (hbig : bytes + 4095 < 2 ^ 32)
    (hraw : SbrkOk s ((bytes + 4095) / 4096 * 4096) (some r)) :
    ∃ s', growArena s bytes (some r) = some (true, s') ∧ ArenaOk s' (l ++ [r]) (r :: fl) ∧
      bytes ≤ (s'.hdr r).size ∧ Effect s l s' (l ++ [r]) ∅ ∅ := by
  obtain ⟨s', hgrow, hshape, hnew, hold, ⟨hfree, hsize⟩, hmem⟩ :=
    h.shape.growArena h.nonempty hraw.1 hpos hbig hraw.2
  have hcases : ∀ x ∈ l ++ [r], x ∈ l ∨ x = r := fun x hx => by simpa using hx
  refine ⟨s', hgrow, ⟨hshape, fun x hx => ?_, fun _ => by simp⟩, by omega,
    ⟨fun x => ?_, fun x hx _ => (hold x hx.1).2, fun x hx _ z hz₁ hz₂ => hmem z ?_⟩⟩
  · rw [List.mem_cons]
    rcases hcases x hx with hxl | rfl
    · rw [(hold x hxl).1, h.flags x hxl]
      refine ⟨Or.inr, fun hx' => hx'.resolve_left ?_⟩
      rintro rfl
      exact hnew hxl
    · simp [hfree]
  · constructor
    · rintro ⟨hx, hf⟩
      rcases hcases x hx with hx | rfl
      · exact Or.inl ⟨⟨hx, by rw [← (hold x hx).1]; exact hf⟩, by simp⟩
      · rw [hfree] at hf
        cases hf
    · rintro (⟨⟨hx, hf⟩, -⟩ | hx)
      · exact ⟨by simp [hx], by rw [(hold x hx).1, hf]⟩
      · cases hx
  · have := (h.shape.tiles.bounds hx.1).2
    simp only [id] at this
    omega

/-- The bytes of a block for `n` bytes. -/
theorem neededBytes_spec {n : ℕ} (hn : n + 31 < 2 ^ 32) : neededBytes n % 8 = 0 ∧ n + hdrSize ≤ neededBytes n := by
  simp only [neededBytes, hdrSize]
  omega

/-- **`malloc`** hands out a block for `n` bytes where it finds one or `grow_arena` does not wrap
around; it fails only where `sys_sbrk` does. -/
theorem malloc (h : ArenaOk s l fl) {n : ℕ} (hpos : n ≠ 0) (hn : n + 31 < 2 ^ 32)
    (hgrow : FindsBlock s fl n ∨ neededBytes n + 4095 < 2 ^ 32) {raw : Option ℕ}
    (hraw : SbrkOk s (extension n) raw) :
    (malloc s n raw = some (0, s) ∧ raw = none ∧ ¬ FindsBlock s fl n) ∨
    ∃ b s' l' fl', malloc s n raw = some (b + hdrSize, s') ∧ ArenaOk s' l' fl' ∧
      Handed s l s' l' b (n + hdrSize) := by
  obtain ⟨h8, hle⟩ := neededBytes_spec hn
  have h24 : hdrSize ≤ neededBytes n := by omega
  obtain ⟨calls, hcalls⟩ : ∃ k, addressSpace = k + 2 := ⟨addressSpace - 2, by decide⟩
  unfold LighthOS.malloc
  rw [hcalls, mallocCalls, if_neg hpos]
  rcases h.mallocFit h8 h24 with ⟨hfit, hnone⟩ | ⟨b, s', l', fl', hfit, hok, hh⟩
  · have hnofit : ¬ FindsBlock s fl n := fun ⟨a, ha, hle⟩ => absurd hle (Nat.not_le.2 (hnone a ha))
    rw [hfit]
    cases raw with
    | none => exact Or.inl ⟨rfl, rfl, hnofit⟩
    | some r =>
        have hbig := hgrow.resolve_left hnofit
        rw [extension, Nat.mod_eq_of_lt hbig] at hraw
        obtain ⟨s₁, hgrow, hok₁, hsize, heff₁⟩ := h.growArena (by simp only [hdrSize] at h24; omega) hbig hraw
        rw [hgrow]
        dsimp only
        rw [mallocCalls, if_neg hpos]
        -- the new block is large enough for the second scan
        rcases hok₁.mallocFit h8 h24 with ⟨-, hnone₁⟩ | ⟨b, s', l', fl', hfit', hok, hh⟩
        · exact absurd (hnone₁ r List.mem_cons_self) (Nat.not_lt.2 hsize)
        · rw [hfit']
          refine Or.inr ⟨b, s', l', fl', rfl, hok,
            (heff₁.trans hh.effect).of_iff (by simp) (by simp), fun hu => ?_, hle.trans hh.room⟩
          exact hh.fresh ((heff₁.used b).2 (Or.inl ⟨hu, by simp⟩))
  · rw [hfit]
    exact Or.inr ⟨b, s', l', fl', rfl, hok, hh.effect, hh.fresh, hle.trans hh.room⟩

/-! ### `free` -/

/-- **A block in use goes to the free list.** -/
theorem insert (h : ArenaOk s l fl) (hb : InUse s l b) :
    ArenaOk (freelistInsert s b) l (b :: fl) ∧ Effect s l (freelistInsert s b) l {b} ∅ := by
  have hhdr := fun c hc => h.shape.hdr_freelistInsert (c := c) hb.1 hc
  have hfree : ∀ c ∈ l, ((freelistInsert s b).hdr c).free = if c = b then true else (s.hdr c).free := by
    intro c hc
    rw [hhdr c hc]
    split_ifs <;> rfl
  have hsize : ∀ c ∈ l, ((freelistInsert s b).hdr c).size = (s.hdr c).size := by
    intro c hc
    rw [hhdr c hc]
    split_ifs with hcb
    · rw [hcb]
    · rfl
  have heff := Effect.of_mark h.shape hb.1 hsize hfree fun z hz => hz.freelistInsert hb.1 s
  rw [show {x | x = b ∧ true = false} = (∅ : Set ℕ) by simp] at heff
  refine ⟨⟨h.shape.freelistInsert hb.1 (h.not_mem_free hb), fun c hc => ?_, h.nonempty⟩, heff⟩
  rw [hfree c hc, List.mem_cons]
  split_ifs with hcb
  · simp [hcb]
  · rw [h.flags c hc]
    exact ⟨Or.inr, fun hc' => hc'.resolve_left hcb⟩

/-- **`freelist_remove`** of a free block. -/
theorem freelistRemove (h : ArenaOk s l fl) (hb : b ∈ fl) : ∃ s' fl', freelistRemove s b = some s' ∧
    ArenaOk s' l fl' ∧ (∀ x, x ∈ fl' ↔ x ∈ fl ∧ x ≠ b) ∧ Effect s l s' l {b} {b} ∧
    ∀ x ∈ l, (s'.hdr x).size = (s.hdr x).size := by
  obtain ⟨xs, ys, rfl⟩ := List.append_of_mem hb
  obtain ⟨s', hs', hshape, hcore, hmem, hstart, -⟩ := h.shape.freelistRemove
  have heff := Effect.of_mark h.shape (h.shape.sub b hb) (fun c hc => (hcore c hc).1)
    (fun c hc => (hcore c hc).2.2) hmem
  rw [show {x | x = b ∧ false = false} = ({b} : Set ℕ) by simp] at heff
  exact ⟨s', _, hs', h.of_remove hshape hstart fun c hc => (hcore c hc).2.2, mem_rest h.shape, heff,
    fun c hc => (hcore c hc).1⟩

/-- **A block takes in the one behind it**, which is marked as in use. -/
theorem absorbBlock (h : ArenaOk s (as ++ a :: c :: bs) fl) (hc : InUse s (as ++ a :: c :: bs) c) :
    ArenaOk (absorbBlock s a c) (as ++ a :: bs) fl ∧
      Effect s (as ++ a :: c :: bs) (absorbBlock s a c) (as ++ a :: bs) {a, c}
        {x | x = a ∧ (s.hdr a).free = false} := by
  obtain ⟨hstart, -, -, hhdr, hmem⟩ := h.shape.hdr_absorbBlock
  have hsub : ∀ x ∈ as ++ a :: bs, x ∈ as ++ a :: c :: bs := fun x hx => Shape.mem_second.2 (Or.inr hx)
  have hback : ∀ x ∈ as ++ a :: c :: bs, x ≠ c → x ∈ as ++ a :: bs := fun x hx => (Shape.mem_second.1 hx).resolve_left
  have hcnot : c ∉ as ++ a :: bs := by
    have := h.shape.nodupBlocks
    rw [show as ++ a :: c :: bs = (as ++ [a]) ++ c :: bs by simp, List.nodup_middle, List.nodup_cons] at this
    simpa using this.1
  have hfree : ∀ x ∈ as ++ a :: bs, ((LighthOS.absorbBlock s a c).hdr x).free = (s.hdr x).free := fun x hx => by
    rw [hhdr x (hsub x hx)]
    rfl
  refine ⟨⟨h.shape.absorbBlock (h.not_mem_free hc), fun x hx => ?_, fun _ => by simp⟩,
    fun x => ?_, fun x hx hg => ?_, fun x hx hg z hz₁ hz₂ => hmem z (h.shape.outside_payload hx.1 hz₁ hz₂)⟩
  · rw [hfree x hx]
    exact h.flags x (hsub x hx)
  · rw [Set.mem_ofPred_eq, Set.mem_insert_iff, Set.mem_singleton_iff, not_or]
    constructor
    · rintro ⟨hx, hf⟩
      rw [hfree x hx] at hf
      by_cases hxa : x = a
      · exact Or.inr ⟨hxa, hxa ▸ hf⟩
      · refine Or.inl ⟨⟨hsub x hx, hf⟩, hxa, ?_⟩
        rintro rfl
        exact hcnot hx
    · rintro (⟨⟨hx, hf⟩, -, hxc⟩ | ⟨rfl, hf⟩)
      · exact ⟨hback x hx hxc, by rw [hfree x (hback x hx hxc), hf]⟩
      · exact ⟨by simp, by rw [hfree x (by simp), hf]⟩
  · rw [Set.mem_insert_iff, not_or] at hg
    rw [hhdr x hx.1]
    exact if_neg hg.1

section

variable (h : ArenaOk s l fl)
include h

/-- **A free block takes in the free block behind it.** -/
theorem coalesceNext (hb : b ∈ fl) : ∃ s' l' fl', coalesceNext s b = some s' ∧
    ArenaOk s' l' fl' ∧ b ∈ fl' ∧ Effect s l s' l' ∅ ∅ := by
  obtain ⟨as, bs, rfl⟩ := List.append_of_mem (h.shape.sub b hb)
  unfold LighthOS.coalesceNext
  rw [h.shape.nextPhys_eq]
  cases bs with
  | nil => exact ⟨s, _, fl, rfl, h, hb, Effect.refl s _⟩
  | cons c bs =>
      simp only [List.head?_cons]
      split_ifs with hfree
      · have hc : c ∈ fl := (h.flags c (by simp)).1 hfree
        have hbc : b ≠ c := by
          rintro rfl
          have := h.shape.nodupBlocks
          simp [List.nodup_append] at this
        obtain ⟨s₁, fl₁, hs₁, hok₁, hfl₁, heff₁, -⟩ := h.freelistRemove hc
        obtain ⟨hok₂, heff₂⟩ := hok₁.absorbBlock ((heff₁.used c).2 (Or.inr rfl))
        have hb₁ : b ∈ fl₁ := (hfl₁ b).2 ⟨hb, hbc⟩
        rw [hs₁]
        refine ⟨_, _, fl₁, rfl, hok₂, hb₁, (heff₁.trans heff₂).of_iff (fun x hx => ?_) fun x => ?_⟩
        · simp [h.ne_of_free hx hb, h.ne_of_free hx hc]
        · have hbfree := (hok₁.mem_free hb₁).2
          simp only [Set.mem_union, Set.mem_sdiff, Set.mem_singleton_iff, Set.mem_insert_iff,
            Set.mem_ofPred_eq, Set.mem_empty_iff_false, hbfree, Bool.true_eq_false]
          tauto
      · exact ⟨s, _, fl, rfl, h, hb, Effect.refl s _⟩

/-- **A free block goes into the free block before it.** -/
theorem coalescePrev (hb : b ∈ fl) : ∃ s' l' fl', coalescePrev s b = some s' ∧
    ArenaOk s' l' fl' ∧ Effect s l s' l' ∅ ∅ := by
  obtain ⟨as, bs, rfl⟩ := List.append_of_mem (h.shape.sub b hb)
  have hprev : (s.hdr b).prevSize = lastSize s 0 as := (prevs_append.1 h.shape.prevs).2.1
  unfold LighthOS.coalescePrev
  rcases List.eq_nil_or_concat as with rfl | ⟨as, a, rfl⟩
  · exact ⟨s, _, fl, if_pos hprev, h, Effect.refl s _⟩
  rw [List.concat_eq_append] at *
  have ha : a ∈ as ++ [a] ++ b :: bs := by simp
  have hsize : (s.hdr b).prevSize = (s.hdr a).size := by
    rw [hprev, lastSize, List.getLast?_concat]
    rfl
  have hroom := h.shape.room a ha
  have hba : b = a + (s.hdr a).size := by
    have htiles := h.shape.tiles
    rw [List.append_assoc, List.singleton_append] at htiles
    exact htiles.split.2.1
  simp only [hdrSize] at hroom
  have hne : a ≠ b := by omega
  rw [hsize, if_neg (by omega)]
  simp only
  rw [show b - (s.hdr a).size = a by omega]
  split_ifs with hfree
  · have hafl : a ∈ fl := (h.flags a ha).1 hfree
    obtain ⟨s₁, fl₁, hs₁, hok₁, hfl₁, heff₁, -⟩ := h.freelistRemove hb
    obtain ⟨s₂, fl₂, hs₂, hok₂, -, heff₂, -⟩ := hok₁.freelistRemove ((hfl₁ a).2 ⟨hafl, hne⟩)
    have hu₂ : InUse s₂ (as ++ [a] ++ b :: bs) b := (heff₂.used b).2 (Or.inl
      ⟨(heff₁.used b).2 (Or.inr rfl), hne.symm⟩)
    have ha₂ : InUse s₂ (as ++ [a] ++ b :: bs) a := (heff₂.used a).2 (Or.inr rfl)
    have heff₁₂ := heff₁.trans heff₂
    simp only [List.append_assoc, List.singleton_append] at hok₂ hu₂ ha₂ heff₁₂
    obtain ⟨hok₃, heff₃⟩ := hok₂.absorbBlock hu₂
    obtain ⟨hok₄, heff₄⟩ := hok₃.insert ((heff₃.used a).2 (Or.inr ⟨rfl, ha₂.2⟩))
    rw [hs₁, Option.bind_some, hs₂]
    refine ⟨_, _, _, rfl, hok₄, ?_⟩
    rw [List.append_assoc, List.singleton_append] at h ⊢
    refine ((heff₁₂.trans heff₃).trans heff₄).of_iff (fun x hx => ?_) fun x => ?_
    · simp [h.ne_of_free hx hb, h.ne_of_free hx hafl]
    · simp only [Set.mem_union, Set.mem_sdiff, Set.mem_singleton_iff, Set.mem_insert_iff,
        Set.mem_ofPred_eq, Set.mem_empty_iff_false]
      tauto
  · exact ⟨s, _, fl, rfl, h, Effect.refl s _⟩

/-- **`free`** gives back a block in use. -/
theorem free (hb : InUse s l b) : ∃ s' l' fl', free s (b + hdrSize) = some s' ∧
    ArenaOk s' l' fl' ∧ Effect s l s' l' {b} ∅ := by
  obtain ⟨hok₁, heff₁⟩ := h.insert hb
  obtain ⟨s₂, l₂, fl₂, hs₂, hok₂, hb₂, heff₂⟩ := hok₁.coalesceNext List.mem_cons_self
  obtain ⟨s₃, l₃, fl₃, hs₃, hok₃, heff₃⟩ := hok₂.coalescePrev hb₂
  refine ⟨s₃, l₃, fl₃, ?_, hok₃, ((heff₁.trans heff₂).trans heff₃).of_iff (by simp) (by simp)⟩
  unfold LighthOS.free
  rw [if_neg (by simp [hdrSize])]
  simp only [Nat.add_sub_cancel]
  rw [if_neg (by simp [hb.2]), hs₂, Option.bind_some, hs₃]

/-! ### `realloc` -/

/-- **The bytes of a block in use** may change. -/
theorem write (hb : InUse s l b) (mem : Cells)
    (hmem : ∀ z, z < b + hdrSize ∨ b + (s.hdr b).size ≤ z → mem z = s.mem z) :
    ArenaOk { s with mem := mem } l fl ∧ Effect s l { s with mem := mem } l {b} {b} ∧
      ∀ x ∈ l, Arena.hdr { s with mem := mem } x = s.hdr x := by
  have hhdr : ∀ x ∈ l, Arena.hdr { s with mem := mem } x = s.hdr x := by
    intro x hx
    refine loadHdr_congr fun z hz₁ hz₂ => hmem z ?_
    have hroom := h.shape.room x hx
    rcases h.shape.tiles.eq_or_apart hb.1 hx with rfl | hd | hd
    · exact Or.inl hz₂
    · simp only [id] at hd
      omega
    · simp only [id] at hd
      omega
  have hshape : Shape { s with mem := mem } l fl :=
    h.shape.of_sizes rfl rfl (fun x hx => by rw [hhdr x hx]; exact ⟨rfl, rfl⟩)
      (h.shape.chain.congr fun x hx => by rw [nextFree, nextFree, hhdr x (h.shape.sub x hx)])
      h.shape.nodup h.shape.sub
  refine ⟨⟨hshape, fun x hx => by rw [hhdr x hx]; exact h.flags x hx, h.nonempty⟩,
    ⟨fun x => ?_, fun x hx _ => by rw [hhdr x hx.1], fun x hx hg z hz₁ hz₂ => hmem z ?_⟩, hhdr⟩
  · rw [Set.mem_singleton_iff]
    have huse : InUse { s with mem := mem } l x ↔ InUse s l x :=
      and_congr_right fun hx => by rw [hhdr x hx]
    rw [huse]
    by_cases hxb : x = b
    · simp [hxb, hb]
    · simp [hxb]
  · rcases h.shape.tiles.eq_or_apart hb.1 hx.1 with heq | hd | hd
    · exact absurd heq.symm hg
    · simp only [id] at hd
      omega
    · simp only [id] at hd
      omega

/-- **`realloc`** of a block in use to `n` bytes: it fails and changes nothing, or what it
returns has the bytes of the block. -/
theorem realloc (hb : InUse s l b) {n : ℕ} (hpos : n ≠ 0) (hn : n + 31 < 2 ^ 32)
    (hgrow : FindsBlock s fl n ∨ neededBytes n + 4095 < 2 ^ 32) {raw : Option ℕ}
    (hraw : SbrkOk s (extension n) raw) :
    (realloc s (b + hdrSize) n raw = some (0, s) ∧ raw = none) ∨
    ∃ c s' l' fl', realloc s (b + hdrSize) n raw = some (c + hdrSize, s') ∧ ArenaOk s' l' fl' ∧
      Effect s l s' l' {b} {c} ∧ (c ≠ b → ¬InUse s l c) ∧ n + hdrSize ≤ (s'.hdr c).size ∧
      ∀ i, i < (s.hdr b).size - hdrSize → i < n →
        s'.mem (c + hdrSize + i) = s.mem (b + hdrSize + i) := by
  have hroom := h.shape.room b hb.1
  unfold LighthOS.realloc
  rw [if_neg (by simp [hdrSize]), if_neg hpos]
  simp only [Nat.add_sub_cancel]
  split_ifs with hle
  · exact Or.inr ⟨b, s, l, fl, rfl, h, Effect.refl_of_inUse hb, fun hne => absurd rfl hne, by omega,
      fun _ _ _ => rfl⟩
  rcases h.malloc hpos hn hgrow hraw with ⟨hm, hnone, -⟩ | ⟨c, s₁, l₁, fl₁, hm, hok₁, hh⟩
  · rw [hm]
    exact Or.inl ⟨rfl, hnone⟩
  have hne : b ≠ c := by
    rintro rfl
    exact hh.fresh hb
  have hb₁ : InUse s₁ l₁ b := (hh.effect.used b).2 (Or.inl ⟨hb, by simp⟩)
  have hc₁ : InUse s₁ l₁ c := (hh.effect.used c).2 (Or.inr rfl)
  obtain ⟨hok₂, heff₂, hhdr₂⟩ := hok₁.write hc₁
    (memcpy s₁.mem (c + hdrSize) (b + hdrSize) ((s.hdr b).size - hdrSize)) fun z hz => by
      have hroom₁ := hh.room
      exact if_neg (by omega)
  have hb₂ := (heff₂.used b).2 (Or.inl ⟨hb₁, hne⟩)
  have hc₂ := (heff₂.used c).2 (Or.inr rfl)
  obtain ⟨s₃, l₃, fl₃, hs₃, hok₃, heff₃⟩ := hok₂.free hb₂
  have hsize₃ : (s₃.hdr c).size = (s₁.hdr c).size := by
    rw [heff₃.size c hc₂ hne.symm, hhdr₂ c hc₁.1]
  rw [hm, Option.bind_some, if_neg (by simp [hdrSize])]
  refine Or.inr ⟨c, s₃, l₃, fl₃, by rw [hs₃]; rfl, hok₃,
    ((hh.effect.trans heff₂).trans heff₃).of_iff (fun x hx => ?_) fun x => ?_, fun _ => hh.fresh, ?_, fun i hi hin => ?_⟩
  · have hxc : x ≠ c := by
      rintro rfl
      exact hh.fresh hx
    simp [hxc]
  · simp only [Set.mem_union, Set.mem_sdiff, Set.mem_singleton_iff, Set.mem_empty_iff_false]
    constructor
    · tauto
    · rintro rfl
      exact Or.inl ⟨Or.inr rfl, hne.symm⟩
  · rw [hsize₃]
    exact hh.room
  · have hroom₁ := hh.room
    calc s₃.mem (c + hdrSize + i)
        = memcpy s₁.mem (c + hdrSize) (b + hdrSize) ((s.hdr b).size - hdrSize) (c + hdrSize + i) :=
          heff₃.bytes c hc₂ hne.symm _ (by omega) (by rw [hhdr₂ c hc₁.1]; omega)
      _ = s₁.mem (b + hdrSize + i) := by
          rw [memcpy, if_pos (by omega), show c + hdrSize + i - (c + hdrSize) = i by omega]
      _ = s.mem (b + hdrSize + i) := hh.effect.bytes b hb (by simp) _ (by omega) (by omega)

end

end ArenaOk

end LighthOS
