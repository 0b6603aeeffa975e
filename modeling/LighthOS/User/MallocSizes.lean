/-
# The sizes that the user heap hands out

`malloc`, `calloc` and `realloc` of `user/libc/malloc.c` for every size of 32 bits.  The header is
added and the sum is rounded to 8 bytes before it is cut to 32 bits, `grow_arena` rounds to pages
in 32 bits, and `calloc` multiplies in 32 bits.

A size that wraps around with its header finds a block that is much too small
(`malloc_wraps`).  One that wraps around in `grow_arena` extends the arena by nothing: a block of no
bytes enters the free list twice and becomes its own successor, and the scan does not end
(`malloc_stuck`).  All other sizes are honoured (`sizes_honoured_iff`).
-/

import LighthOS.User.MallocRuns

namespace LighthOS

/-- The call returns, with null or with a block for `n` bytes inside the arena. -/
def Honoured (n : ℕ) (r : Option (ℕ × Arena)) : Prop :=
  ∃ p a, r = some (p, a) ∧ (p ≠ 0 → a.arenaStart + hdrSize ≤ p ∧ p + n ≤ a.arenaEnd ∧ n ≤ payload a p)

/-- The call returns null: there is nothing to hand out, or no free block is large enough and the
arena does not grow. -/
def NoBlock (s : Arena) (fl : List ℕ) (n : ℕ) (raw : Option ℕ) : Prop :=
  n = 0 ∨ raw = none ∧ ¬ FindsBlock s fl n

/-- The computations for `n` bytes do not wrap around, as far as they are made. -/
def NoWrap (s : Arena) (fl : List ℕ) (n : ℕ) : Prop :=
  n + 31 < 2 ^ 32 ∧ (FindsBlock s fl n ∨ neededBytes n + 4095 < 2 ^ 32)

/-! ### The bounds of the arena -/

/-- `arena_start` and `arena_end`. -/
def Arena.bounds (s : Arena) : ℕ × ℕ := (s.arenaStart, s.arenaEnd)

section Bounds

variable {s s' : Arena} {b c n : ℕ}

theorem bounds_setLink (s : Arena) (prev : Option ℕ) (t : ℕ) : (setLink s prev t).bounds = s.bounds := by
  cases prev <;> rfl

theorem bounds_maybeSplit (s : Arena) (b needed : ℕ) : (maybeSplit s b needed).bounds = s.bounds := by
  unfold maybeSplit
  split_ifs
  · rfl
  · unfold cutBlock
    dsimp only
    split <;> rfl

theorem bounds_mallocFit {needed : ℕ} {r : ℕ × Arena} (h : mallocFit s needed = some (some r)) :
    r.1 ≠ 0 ∧ r.2.bounds = s.bounds := by
  obtain ⟨found, -, hfound⟩ := Option.map_eq_some_iff.1 h
  obtain ⟨q, -, rfl⟩ := Option.map_eq_some_iff.1 hfound
  refine ⟨by simp [hdrSize], (bounds_maybeSplit _ _ _).trans ?_⟩
  exact bounds_setLink s q.1 _

theorem bounds_absorbBlock (s : Arena) (a c : ℕ) : (absorbBlock s a c).bounds = s.bounds := by
  unfold absorbBlock
  dsimp only
  split <;> rfl

theorem bounds_freelistRemove (h : freelistRemove s b = some s') : s'.bounds = s.bounds := by
  unfold freelistRemove at h
  dsimp only at h
  split_ifs at h
  · rw [← Option.some.inj h]
    rfl
  · obtain ⟨p, -, rfl⟩ := Option.map_eq_some_iff.1 h
    cases p <;> rfl

theorem bounds_coalesceNext (h : coalesceNext s b = some s') : s'.bounds = s.bounds := by
  unfold coalesceNext at h
  split at h
  · rw [← Option.some.inj h]
  · split_ifs at h
    · obtain ⟨s₁, hs₁, rfl⟩ := Option.map_eq_some_iff.1 h
      exact (bounds_absorbBlock _ _ _).trans (bounds_freelistRemove hs₁)
    · rw [← Option.some.inj h]

theorem bounds_coalescePrev (h : coalescePrev s b = some s') : s'.bounds = s.bounds := by
  unfold coalescePrev at h
  dsimp only at h
  split_ifs at h
  · rw [← Option.some.inj h]
  · obtain ⟨s₁, hs₁, h⟩ := Option.bind_eq_some_iff.1 h
    obtain ⟨s₂, hs₂, rfl⟩ := Option.map_eq_some_iff.1 h
    exact (bounds_absorbBlock s₂ _ _).trans ((bounds_freelistRemove hs₂).trans (bounds_freelistRemove hs₁))
  · rw [← Option.some.inj h]

/-- **`free`** leaves the bounds of the arena alone, whatever the headers hold. -/
theorem bounds_free {p : ℕ} (h : free s p = some s') : s'.bounds = s.bounds := by
  unfold free at h
  dsimp only at h
  split_ifs at h
  · rw [← Option.some.inj h]
  · rw [← Option.some.inj h]
  · obtain ⟨s₁, hs₁, h⟩ := Option.bind_eq_some_iff.1 h
    have hnext := bounds_coalesceNext hs₁
    exact (bounds_coalescePrev h).trans hnext

/-- The bounds after a growth by `rounded` bytes at `b`. -/
def grownBounds (s : Arena) (b rounded : ℕ) : ℕ × ℕ := (if s.arenaStart = 0 then b else s.arenaStart, b + rounded)

theorem bounds_growArena {ok : Bool} (h : growArena s (neededBytes n) (some b) = some (ok, s')) :
    ok = true ∧ s'.bounds = grownBounds s b (extension n) := by
  unfold growArena at h
  dsimp only at h
  obtain ⟨t, ht, hs'⟩ := Option.map_eq_some_iff.1 h
  obtain ⟨rfl, rfl⟩ := Prod.mk.inj hs'
  refine ⟨rfl, ?_⟩
  have hstart : t.arenaStart = if s.arenaStart = 0 then b else s.arenaStart := by
    rw [Arena.setHdr_arenaStart] at ht
    split_ifs at ht ⊢
    · rw [← Option.some.inj ht]
    · obtain ⟨_, -, rfl⟩ := Option.map_eq_some_iff.1 ht
      rfl
    · rw [← Option.some.inj ht]
      rfl
  exact Prod.ext hstart rfl

/-- A call of `malloc` in which the arena can grow does not return null. -/
theorem bounds_mallocCalls (hn : n ≠ 0) (hb : b ≠ 0) {calls : ℕ} {r : ℕ × Arena}
    (h : mallocCalls n (some b) calls s = some r) :
    r.1 ≠ 0 ∧ (r.2.bounds = s.bounds ∨ r.2.bounds = grownBounds s b (extension n)) := by
  induction calls generalizing s with
  | zero => cases h
  | succ calls ih =>
      rw [mallocCalls, if_neg hn] at h
      split at h
      · cases h
      · next r' hfit =>
          obtain rfl := Option.some.inj h
          exact ⟨(bounds_mallocFit hfit).1, Or.inl (bounds_mallocFit hfit).2⟩
      · split at h
        · cases h
        · next hgrow => exact absurd (bounds_growArena hgrow).1 Bool.false_ne_true
        · next s₁ hgrow =>
            have hs₁ := (bounds_growArena hgrow).2
            obtain ⟨hne, hr⟩ := ih h
            have hagain : grownBounds s₁ b (extension n) = grownBounds s b (extension n) := by
              have hstart : s₁.arenaStart = if s.arenaStart = 0 then b else s.arenaStart := congrArg Prod.fst hs₁
              unfold grownBounds
              rw [hstart]
              split_ifs <;> simp_all
            rcases hr with hr | hr
            · exact ⟨hne, Or.inr (hr.trans hs₁)⟩
            · exact ⟨hne, Or.inr (hr.trans hagain)⟩

end Bounds

/-! ### `malloc` -/

namespace ArenaOk

variable {s : Arena} {l fl : List ℕ} {b n : ℕ} {raw : Option ℕ} {r : ℕ × Arena}

section

variable (h : ArenaOk s l fl)
include h

theorem start_aligned : s.arenaStart % 8 = 0 := by
  cases l with
  | nil =>
      have hend := h.shape.alignedEnd
      rwa [← show s.arenaStart = s.arenaEnd from h.shape.tiles] at hend
  | cons a l =>
      have ha := h.shape.aligned a List.mem_cons_self
      rwa [show a = s.arenaStart from h.shape.tiles.1] at ha

/-- The scan of `malloc` ends, for any size. -/
theorem mallocFit_cases (n : ℕ) : (LighthOS.mallocFit s (neededBytes n) = some none ∧ ¬ FindsBlock s fl n) ∨
    ∃ r, LighthOS.mallocFit s (neededBytes n) = some (some r) ∧ FindsBlock s fl n := by
  unfold LighthOS.mallocFit
  rcases Linked.searchPrev_cases (fun b => decide (neededBytes n ≤ (s.hdr b).size)) none h.shape.chain
    h.shape.length_le with ⟨hs, hnone⟩ | ⟨xs, b, ys, rfl, hb, -, hs⟩
  · rw [hs]
    refine Or.inl ⟨rfl, fun ⟨a, ha, hle⟩ => ?_⟩
    exact of_decide_eq_false (hnone a ha) hle
  · rw [hs]
    exact Or.inr ⟨_, rfl, b, by simp, of_decide_eq_true hb⟩

/-- **Null** is returned without a change. -/
theorem malloc_of_noBlock (hno : NoBlock s fl n raw) : LighthOS.malloc s n raw = some (0, s) := by
  obtain ⟨calls, hcalls⟩ : ∃ k, addressSpace = k + 1 := ⟨addressSpace - 1, by decide⟩
  unfold LighthOS.malloc
  rw [hcalls, mallocCalls]
  by_cases hn : n = 0
  · rw [if_pos hn]
  · obtain ⟨rfl, hfinds⟩ := hno.resolve_left hn
    rw [if_neg hn]
    rcases h.mallocFit_cases n with ⟨hfit, -⟩ | ⟨r, -, hfound⟩
    · rw [hfit]
      rfl
    · exact absurd hfound hfinds

/-- Where `sys_sbrk` puts new memory. -/
theorem sbrk_place {rounded : ℕ} (hraw : SbrkOk s rounded (some b)) : b ≠ 0 ∧ s.arenaEnd ≤ b := by
  have hle := h.shape.tiles.le
  obtain ⟨hplace, -⟩ := hraw
  split_ifs at hplace with h₀
  · refine ⟨hplace.1, ?_⟩
    cases l with
    | nil =>
        rw [← show s.arenaStart = s.arenaEnd from h.shape.tiles, h₀]
        exact Nat.zero_le b
    | cons a l => exact absurd (h.shape.tiles.1.trans h₀) (h.shape.pos a List.mem_cons_self)
  · omega

/-- **A call that returns** gives null in these cases only, and leaves an arena of less than 2 ^ 32 bytes. -/
theorem malloc_result (hraw : SbrkOk s (extension n) raw) (hno : ¬ NoBlock s fl n raw)
    (hr : LighthOS.malloc s n raw = some r) : r.1 ≠ 0 ∧ r.2.arenaEnd + 8 ≤ r.2.arenaStart + 2 ^ 32 := by
  have hn : n ≠ 0 := fun h₀ => hno (Or.inl h₀)
  have halign := h.start_aligned
  have hend := h.shape.alignedEnd
  have hsmall := h.shape.small
  have hle := h.shape.tiles.le
  have hkept : ∀ {a : Arena}, a.bounds = s.bounds → a.arenaEnd + 8 ≤ a.arenaStart + 2 ^ 32 := by
    intro a ha
    obtain ⟨h₁, h₂⟩ := Prod.mk.inj ha
    omega
  unfold LighthOS.malloc at hr
  cases raw with
  | none =>
      -- without growth the block is in the free list
      obtain ⟨calls, hcalls⟩ : ∃ k, addressSpace = k + 1 := ⟨addressSpace - 1, by decide⟩
      rw [hcalls, mallocCalls, if_neg hn] at hr
      rcases h.mallocFit_cases n with ⟨-, hfinds⟩ | ⟨r', hfit, -⟩
      · exact absurd (Or.inr ⟨rfl, hfinds⟩) hno
      · rw [hfit] at hr
        obtain rfl := Option.some.inj hr
        exact ⟨(bounds_mallocFit hfit).1, hkept (bounds_mallocFit hfit).2⟩
  | some b =>
      have hb := (h.sbrk_place hraw).1
      obtain ⟨hplace, hroom⟩ := hraw
      have hext : extension n % 8 = 0 := by
        unfold extension
        omega
      obtain ⟨hne, hbounds⟩ := bounds_mallocCalls hn hb hr
      refine ⟨hne, hbounds.elim hkept fun hgrown => ?_⟩
      obtain ⟨h₁, h₂⟩ := Prod.mk.inj hgrown
      rw [h₁, h₂]
      split_ifs at hplace ⊢ with h₀
      · omega
      · omega

end

end ArenaOk

/-! ### An extension by nothing -/

/-- The free list after a growth by nothing: a block of no bytes at `b` comes first, and the headers
below it are as before. -/
structure EmptyHead (s : Arena) (b : ℕ) (s' : Arena) : Prop where
  head : s'.freeHead = b
  size : (s'.hdr b).size = 0
  next : (s'.hdr b).nextFree = s.freeHead
  below_eq : ∀ x, x + hdrSize ≤ b → s'.hdr x = s.hdr x

theorem emptyHead_freelistInsert {s u : Arena} {b : ℕ} (hhead : u.freeHead = s.freeHead) (hsize : (u.hdr b).size = 0)
    (hbelow : ∀ x, x + hdrSize ≤ b → u.hdr x = s.hdr x) (e : ℕ) :
    EmptyHead s b (freelistInsert { u with arenaEnd := e } b) := by
  have hself := Arena.hdr_setHdr_self { u with arenaEnd := e } b
    fun h => { h with free := true, nextFree := u.freeHead }
  have hapart := fun x hx => Arena.hdr_setHdr_of_apart { u with arenaEnd := e } b
    (fun h => { h with free := true, nextFree := u.freeHead }) (c := x) (Or.inr hx)
  exact ⟨rfl, (congrArg Hdr.size hself).trans hsize, (congrArg Hdr.nextFree hself).trans hhead,
    fun x hx => (hapart x hx).trans (hbelow x hx)⟩

/-- **`grow_arena` by nothing** succeeds where the walk to the last block ends. -/
theorem growArena_nothing {s : Arena} {b bytes : ℕ} (hround : (bytes + 4095) % 2 ^ 32 / 4096 * 4096 = 0)
    (hwalk : s.arenaStart = 0 ∨ s.arenaEnd = b ∧ (arenaBlocks (s.setHdr b fun _ => ⟨0, 0, 0, true⟩)).isSome = true) :
    ∃ s', growArena s bytes (some b) = some (true, s') ∧ EmptyHead s b s' := by
  have hself := Arena.hdr_setHdr_self s b fun _ => ⟨0, 0, 0, true⟩
  have hbelow := fun x hx => Arena.hdr_setHdr_of_apart s b (fun _ => ⟨0, 0, 0, true⟩) (c := x) (Or.inr hx)
  unfold growArena
  simp only [hround, Arena.setHdr_arenaStart, Arena.setHdr_arenaEnd]
  generalize hu : (s.setHdr b fun _ => ⟨0, 0, 0, true⟩) = u at hself hbelow hwalk
  have hhead : u.freeHead = s.freeHead := by rw [← hu]; rfl
  by_cases h₀ : s.arenaStart = 0
  · rw [if_pos h₀]
    refine ⟨_, rfl, emptyHead_freelistInsert (u := { u with arenaStart := b }) hhead ?_ hbelow _⟩
    exact congrArg Hdr.size hself
  · obtain ⟨hend, hblocks⟩ := hwalk.resolve_left h₀
    obtain ⟨blocks, hblocks⟩ := Option.isSome_iff_exists.1 hblocks
    rw [if_neg h₀, if_pos hend, lastBlock, hblocks]
    refine ⟨_, rfl, emptyHead_freelistInsert (u := u.setHdr b fun h =>
      { h with prevSize := (u.hdr (blocks.getLast?.getD u.arenaStart)).size }) hhead ?_ (fun x hx => ?_) _⟩
    · rw [Arena.hdr_setHdr_self, hself]
    · exact (Arena.hdr_setHdr_of_apart u b _ (Or.inr hx)).trans (hbelow x hx)

namespace ArenaOk

variable {s : Arena} {l fl : List ℕ} {b n : ℕ}

theorem below_end (h : ArenaOk s l fl) {a : ℕ} (ha : a ∈ l) : a + hdrSize ≤ s.arenaEnd := by
  have h₁ := (h.shape.tiles.bounds ha).2
  have h₂ := h.shape.room a ha
  simp only [id] at h₁
  omega

/-- The scan finds nothing behind the block of no bytes either. -/
theorem mallocFit_emptyHead (h : ArenaOk s l fl) (hb : b ≠ 0) (hend : s.arenaEnd ≤ b) {s₁ : Arena}
    (hs₁ : EmptyHead s b s₁) {needed : ℕ} (hpos : 0 < needed) (hno : ∀ a ∈ fl, (s.hdr a).size < needed) :
    LighthOS.mallocFit s₁ needed = some none := by
  have hsame : ∀ a ∈ fl, s₁.hdr a = s.hdr a := fun a ha =>
    hs₁.below_eq a ((h.below_end (h.shape.sub a ha)).trans hend)
  have hchain : Linked.Segment (nextFree s₁) (toPtr s₁.freeHead) (b :: fl) none := by
    refine ⟨by rw [hs₁.head, toPtr_of_ne_zero hb], ?_⟩
    rw [nextFree, hs₁.next]
    exact h.shape.chain.congr fun a ha => by rw [nextFree, nextFree, hsame a ha]
  have hlen : (b :: fl).length ≤ addressSpace := by
    have := h.shape.length_lt
    rw [List.length_cons]
    simp only [addressSpace]
    omega
  have hnone : ∀ a ∈ b :: fl, (s₁.hdr a).size < needed := by
    intro a ha
    rcases List.mem_cons.1 ha with rfl | ha
    · rw [hs₁.size]
      exact hpos
    · rw [hsame a ha]
      exact hno a ha
  unfold LighthOS.mallocFit
  rcases Linked.searchPrev_cases (fun a => decide (needed ≤ (s₁.hdr a).size)) none hchain hlen with
    ⟨hs, -⟩ | ⟨xs, a, ys, hxs, ha, -, -⟩
  · rw [hs]
    rfl
  · exact absurd (of_decide_eq_true ha) (Nat.not_le.2 (hnone a (by simp [hxs])))

/-- The scan does not end in a block that is its own successor. -/
theorem mallocFit_self {s₁ s₂ : Arena} (hb : b ≠ 0) (hhead : s₁.freeHead = b) (hs₂ : EmptyHead s₁ b s₂) {needed : ℕ}
    (hpos : 0 < needed) : LighthOS.mallocFit s₂ needed = none := by
  have hnext : nextFree s₂ b = some b := by rw [nextFree, hs₂.next, hhead, toPtr_of_ne_zero hb]
  have hfound : decide (needed ≤ (s₂.hdr b).size) = false := by
    rw [hs₂.size]
    exact decide_eq_false (by omega)
  unfold LighthOS.mallocFit
  rw [hs₂.head, toPtr_of_ne_zero hb, Linked.searchPrev_self hnext hfound]
  rfl

/-- **A size that wraps around in `grow_arena`** makes `malloc` scan forever, if no free block is large
enough and `sys_sbrk` succeeds. -/
theorem malloc_stuck (h : ArenaOk s l fl) (hbig : 2 ^ 32 ≤ neededBytes n + 4095) (hno : ¬ FindsBlock s fl n)
    (hraw : SbrkOk s (extension n) (some b)) : LighthOS.malloc s n (some b) = none := by
  have hlt : neededBytes n < 2 ^ 32 := Nat.mod_lt _ (by decide)
  have hpos : 0 < neededBytes n := by omega
  have hn : n ≠ 0 := by
    rintro rfl
    exact absurd hbig (by decide)
  have hround : (neededBytes n + 4095) % 2 ^ 32 / 4096 * 4096 = 0 := by omega
  have hsmall : ∀ a ∈ fl, (s.hdr a).size < neededBytes n := fun a ha => by
    by_contra hle
    exact hno ⟨a, ha, Nat.not_lt.1 hle⟩
  obtain ⟨hb, hend⟩ := h.sbrk_place hraw
  have hplace := hraw.1
  have hwalk : ∀ t : Arena, t.arenaStart = s.arenaStart → t.arenaEnd = s.arenaEnd → (∀ a ∈ l, t.hdr a = s.hdr a) →
      (arenaBlocks (t.setHdr b fun _ => ⟨0, 0, 0, true⟩)).isSome = true := by
    intro t hstart ht hsame
    rw [h.shape.arenaBlocks_eq (t := t.setHdr b fun _ => ⟨0, 0, 0, true⟩) hstart ht fun a ha => ?_, Option.isSome_some]
    rw [h.shape.hdr_setHdr_end hend _ ha, hsame a ha]
  -- the first growth puts the block of no bytes in front of the free list
  obtain ⟨s₁, hgrow₁, hs₁⟩ : ∃ s', LighthOS.growArena s (neededBytes n) (some b) = some (true, s') ∧
      EmptyHead s b s' := by
    refine growArena_nothing hround ?_
    split_ifs at hplace with h₀
    · exact Or.inl h₀
    · exact Or.inr ⟨hplace.symm, hwalk s rfl rfl fun _ _ => rfl⟩
  have hfit₁ := h.mallocFit_emptyHead hb hend hs₁ hpos hsmall
  -- the second one links it to itself
  obtain ⟨s₂, hgrow₂, hs₂⟩ : ∃ s', LighthOS.growArena s₁ (neededBytes n) (some b) = some (true, s') ∧
      EmptyHead s₁ b s' := by
    obtain ⟨hstart₁, hend₁⟩ := Prod.mk.inj (bounds_growArena hgrow₁).2
    have hend₁ : s₁.arenaEnd = b := by
      rw [hend₁, extension, hround, Nat.add_zero]
    refine growArena_nothing hround (Or.inr ⟨hend₁, ?_⟩)
    split_ifs at hplace hstart₁ with h₀
    · unfold arenaBlocks
      rw [Arena.setHdr_arenaStart, Arena.setHdr_arenaEnd, hstart₁, hend₁, if_neg (Nat.lt_irrefl b)]
      rfl
    · exact hwalk s₁ hstart₁ (hend₁.trans hplace) fun a ha => hs₁.below_eq a ((h.below_end ha).trans hend)
  have hfit₂ := mallocFit_self hb hs₁.head hs₂ hpos
  obtain ⟨calls, hcalls⟩ : ∃ k, addressSpace = k + 3 := ⟨addressSpace - 3, by decide⟩
  have hfit : LighthOS.mallocFit s (neededBytes n) = some none := by
    rcases h.mallocFit_cases n with hfit | ⟨_, _, hfound⟩
    · exact hfit.1
    · exact absurd hfound hno
  unfold LighthOS.malloc
  rw [hcalls, mallocCalls, if_neg hn, hfit, hgrow₁]
  dsimp only
  rw [mallocCalls, if_neg hn, hfit₁, hgrow₂]
  dsimp only
  rw [mallocCalls, if_neg hn, hfit₂]

end ArenaOk

/-! ### What is honoured -/

theorem honoured_null (n : ℕ) (s : Arena) : Honoured n (some (0, s)) := ⟨0, s, rfl, fun h => absurd rfl h⟩

/-- A block in use with room for `n` bytes. -/
theorem ArenaOk.honoured {s : Arena} {l fl : List ℕ} {b n : ℕ} (h : ArenaOk s l fl) (hb : InUse s l b)
    (hroom : n + hdrSize ≤ (s.hdr b).size) : Honoured n (some (b + hdrSize, s)) := by
  obtain ⟨h₁, h₂⟩ := h.shape.tiles.bounds hb.1
  simp only [id] at h₁ h₂
  refine ⟨_, s, rfl, fun _ => ⟨by omega, by omega, ?_⟩⟩
  simp only [payload, Nat.add_sub_cancel]
  omega

/-- The bytes that `calloc` clears are behind the header. -/
theorem honoured_calloc {s : Arena} {n sz m : ℕ} {raw : Option ℕ} :
    Honoured m (calloc s n sz raw) ↔ Honoured m (malloc s (n * sz % 2 ^ 32) raw) := by
  have hpayload : ∀ (a : Arena) (p k : ℕ), hdrSize ≤ p →
      payload { a with mem := memset a.mem p k } p = payload a p := by
    intro a p k hp
    have hcell : memset a.mem p k (p - hdrSize) = a.mem (p - hdrSize) := if_neg (by simp only [hdrSize] at hp ⊢; omega)
    simp only [payload, Arena.hdr, loadHdr, hcell]
  unfold calloc
  dsimp only
  constructor
  · rintro ⟨p, a, hcall, hp⟩
    obtain ⟨⟨q, a'⟩, hm, heq⟩ := Option.map_eq_some_iff.1 hcall
    dsimp only at heq
    refine ⟨q, a', hm, fun hq => ?_⟩
    rw [if_neg hq] at heq
    obtain ⟨rfl, rfl⟩ := Prod.mk.inj heq
    obtain ⟨h₁, h₂, h₃⟩ := hp hq
    rw [hpayload _ _ _ (by omega)] at h₃
    exact ⟨h₁, h₂, h₃⟩
  · rintro ⟨p, a, hm, hp⟩
    rw [hm, Option.map_some]
    dsimp only
    split_ifs with hq
    · rw [hq]
      exact honoured_null m a
    · obtain ⟨h₁, h₂, h₃⟩ := hp hq
      exact ⟨p, _, rfl, fun _ => ⟨h₁, h₂, by rw [hpayload _ _ _ (by omega)]; exact h₃⟩⟩

namespace ArenaOk

variable {s : Arena} {l fl : List ℕ} {b n : ℕ} {raw : Option ℕ}

/-- **A size that wraps around**: if `malloc` returns at all, then with a pointer into an arena that has no
room for it. -/
theorem malloc_of_wrap (h : ArenaOk s l fl) (hraw : SbrkOk s (extension n) raw) (hno : ¬ NoBlock s fl n raw)
    (hwrap : ¬ NoWrap s fl n) {r : ℕ × Arena} (hr : LighthOS.malloc s n raw = some r) :
    r.1 ≠ 0 ∧ r.2.arenaEnd < r.2.arenaStart + hdrSize + n := by
  obtain ⟨hne, hsmall⟩ := h.malloc_result hraw hno hr
  refine ⟨hne, ?_⟩
  by_cases hn : n + 31 < 2 ^ 32
  · -- the wrap-around is in `grow_arena`
    have hbig : ¬ (FindsBlock s fl n ∨ neededBytes n + 4095 < 2 ^ 32) := fun hor => hwrap ⟨hn, hor⟩
    rw [not_or, Nat.not_lt] at hbig
    cases raw with
    | none => exact absurd (Or.inr ⟨rfl, hbig.1⟩) hno
    | some b =>
        rw [h.malloc_stuck hbig.2 hbig.1 hraw] at hr
        cases hr
  · simp only [hdrSize]
    omega

theorem malloc_honoured_iff (h : ArenaOk s l fl) (hraw : SbrkOk s (extension n) raw) :
    Honoured n (LighthOS.malloc s n raw) ↔ NoBlock s fl n raw ∨ NoWrap s fl n := by
  constructor
  · rintro ⟨p, a, hm, hp⟩
    by_contra hcon
    rw [not_or] at hcon
    obtain ⟨hne, hlt⟩ := h.malloc_of_wrap hraw hcon.1 hcon.2 hm
    obtain ⟨h₁, h₂, -⟩ := hp hne
    dsimp only at hlt
    omega
  · intro hcond
    by_cases hno : NoBlock s fl n raw
    · rw [h.malloc_of_noBlock hno]
      exact honoured_null n s
    · obtain ⟨hn, hgrow⟩ := hcond.resolve_left hno
      rcases h.malloc (fun h₀ => hno (Or.inl h₀)) hn hgrow hraw with
        ⟨-, hnone, hfinds⟩ | ⟨b, s', l', fl', hm, hok, hh⟩
      · exact absurd (Or.inr ⟨hnone, hfinds⟩) hno
      · rw [hm]
        exact hok.honoured ((hh.effect.used b).2 (Or.inr rfl)) hh.room

theorem calloc_honoured_iff (h : ArenaOk s l fl) {sz : ℕ} (hraw : SbrkOk s (extension (n * sz % 2 ^ 32)) raw) :
    Honoured (n * sz) (LighthOS.calloc s n sz raw) ↔
      NoBlock s fl (n * sz % 2 ^ 32) raw ∨ n * sz < 2 ^ 32 ∧ NoWrap s fl (n * sz) := by
  rw [honoured_calloc]
  by_cases hlt : n * sz < 2 ^ 32
  · rw [Nat.mod_eq_of_lt hlt] at hraw ⊢
    rw [h.malloc_honoured_iff hraw, and_iff_right hlt]
  · constructor
    · rintro ⟨p, a, hm, hp⟩
      by_contra hcon
      rw [not_or] at hcon
      obtain ⟨hne, hsmall⟩ := h.malloc_result hraw hcon.1 hm
      obtain ⟨h₁, h₂, -⟩ := hp hne
      dsimp only at hsmall
      omega
    · intro hcond
      rw [h.malloc_of_noBlock (hcond.resolve_right fun h' => hlt h'.1)]
      exact honoured_null _ s

theorem realloc_honoured_iff (h : ArenaOk s l fl) (hb : InUse s l b) (hraw : SbrkOk s (extension n) raw) :
    Honoured n (LighthOS.realloc s (b + hdrSize) n raw) ↔
      n ≤ payload s (b + hdrSize) ∨ NoBlock s fl n raw ∨ NoWrap s fl n := by
  have hroom := h.shape.room b hb.1
  have hpayload : payload s (b + hdrSize) = (s.hdr b).size - hdrSize := by rw [payload, Nat.add_sub_cancel]
  by_cases h₀ : n = 0
  · obtain ⟨s', -, -, hfree, -⟩ := h.free hb
    unfold LighthOS.realloc
    rw [if_neg (by simp [hdrSize]), if_pos h₀, hfree]
    exact iff_of_true (honoured_null n s') (Or.inl (h₀ ▸ Nat.zero_le _))
  by_cases hle : n ≤ payload s (b + hdrSize)
  · have hkeep : LighthOS.realloc s (b + hdrSize) n raw = some (b + hdrSize, s) := by
      unfold LighthOS.realloc
      rw [if_neg (by simp [hdrSize]), if_neg h₀, Nat.add_sub_cancel, if_pos (hpayload ▸ hle)]
    rw [hkeep]
    exact iff_of_true (h.honoured hb (by omega)) (Or.inl hle)
  rw [or_iff_right hle]
  constructor
  · rintro ⟨p, a, hr, hp⟩
    by_contra hcon
    rw [not_or] at hcon
    unfold LighthOS.realloc at hr
    rw [if_neg (by simp [hdrSize]), if_neg h₀, Nat.add_sub_cancel, if_neg (hpayload ▸ hle)] at hr
    obtain ⟨r, hm, hr⟩ := Option.bind_eq_some_iff.1 hr
    obtain ⟨hne, hlt⟩ := h.malloc_of_wrap hraw hcon.1 hcon.2 hm
    rw [if_neg hne] at hr
    obtain ⟨a', hfree, heq⟩ := Option.map_eq_some_iff.1 hr
    obtain ⟨rfl, rfl⟩ := Prod.mk.inj heq
    obtain ⟨hstart, hend⟩ := Prod.mk.inj (bounds_free hfree)
    obtain ⟨h₁, h₂, -⟩ := hp hne
    dsimp only at hstart hend
    omega
  · intro hcond
    by_cases hno : NoBlock s fl n raw
    · have hnull : LighthOS.realloc s (b + hdrSize) n raw = some (0, s) := by
        unfold LighthOS.realloc
        rw [if_neg (by simp [hdrSize]), if_neg h₀, Nat.add_sub_cancel, if_neg (hpayload ▸ hle),
          h.malloc_of_noBlock hno]
        rfl
      rw [hnull]
      exact honoured_null n s
    · obtain ⟨hn, hgrow⟩ := hcond.resolve_left hno
      rcases h.realloc hb h₀ hn hgrow hraw with ⟨hr, -⟩ | ⟨c, s', l', fl', hr, hok, heff, -, hsize, -⟩
      · rw [hr]
        exact honoured_null n s
      · rw [hr]
        exact hok.honoured ((heff.used c).2 (Or.inr rfl)) hsize

end ArenaOk

/-- **Sizes are honoured exactly where nothing wraps around**, in every state in order, as all states
that programs reach are (`mallocSystem_inv`): a call of `malloc`, `calloc` or `realloc` ends with null
or with a large enough block if and only if there is nothing to hand out, or no computation that is
made for the size wraps around; `realloc` also keeps a block that is large enough already. -/
theorem sizes_honoured_iff {s : Arena} {l fl : List ℕ} (h : ArenaOk s l fl) (raw : Option ℕ) (n sz : ℕ) :
    (SbrkOk s (extension n) raw →
      (Honoured n (malloc s n raw) ↔ NoBlock s fl n raw ∨ NoWrap s fl n) ∧
      (Honoured n (realloc s 0 n raw) ↔ NoBlock s fl n raw ∨ NoWrap s fl n) ∧
      ∀ b, InUse s l b → (Honoured n (realloc s (b + hdrSize) n raw) ↔
        n ≤ payload s (b + hdrSize) ∨ NoBlock s fl n raw ∨ NoWrap s fl n)) ∧
    (SbrkOk s (extension (n * sz % 2 ^ 32)) raw →
      (Honoured (n * sz) (calloc s n sz raw) ↔
        NoBlock s fl (n * sz % 2 ^ 32) raw ∨ n * sz < 2 ^ 32 ∧ NoWrap s fl (n * sz))) :=
  ⟨fun hraw => ⟨h.malloc_honoured_iff hraw, h.malloc_honoured_iff hraw, fun _ hb => h.realloc_honoured_iff hb hraw⟩,
    fun hraw => h.calloc_honoured_iff hraw⟩

/-- The hypotheses of `sizes_honoured_iff` are satisfiable: 100 bytes, in a program that has no arena yet. -/
theorem sizes_honoured_hundred : Honoured 100 (malloc ⟨fun _ => 0, 0, 0, 0⟩ 100 (some 0x1000)) :=
  ((sizes_honoured_iff (MallocInv.init fun _ => 0).arena (some 0x1000) 100 1).1
    (by simp [SbrkOk, extension, neededBytes, hdrSize])).1.2 (Or.inr ⟨by decide, Or.inr (by decide)⟩)

/-- **Sizes that wrap around:** in a program that has no arena yet, `malloc(2^32 - 1)` hands out a block
in an arena of a page, `calloc(65536, 65537)` one in an arena of 17 pages, and `malloc(2^32 - 4000)`
does not return. -/
theorem malloc_wraps : ∃ s a a' : Arena, ArenaOk s [] [] ∧
    malloc s (2 ^ 32 - 1) (some 0x1000) = some (0x1018, a) ∧ a.bounds = (0x1000, 0x2000) ∧
    calloc s 65536 65537 (some 0x1000) = some (0x1018, a') ∧ a'.bounds = (0x1000, 0x12000) ∧
    ¬ Honoured (2 ^ 32 - 1) (malloc s (2 ^ 32 - 1) (some 0x1000)) ∧
    ¬ Honoured (65536 * 65537) (calloc s 65536 65537 (some 0x1000)) ∧
    ¬ Honoured (2 ^ 32 - 4000) (malloc s (2 ^ 32 - 4000) (some 0x1000)) := by
  have hok := (MallocInv.init fun _ => 0).arena
  have hmalloc : (malloc ⟨fun _ => 0, 0, 0, 0⟩ (2 ^ 32 - 1) (some 0x1000)).any
      (fun r => r.1 = 0x1018 ∧ r.2.bounds = (0x1000, 0x2000)) = true := by decide +kernel
  have hcalloc : (calloc ⟨fun _ => 0, 0, 0, 0⟩ 65536 65537 (some 0x1000)).any
      (fun r => r.1 = 0x1018 ∧ r.2.bounds = (0x1000, 0x12000)) = true := by decide +kernel
  obtain ⟨⟨p, a⟩, hm, hok₁⟩ := (Option.any_eq_true _ _).1 hmalloc
  obtain ⟨⟨q, a'⟩, hc, hok₂⟩ := (Option.any_eq_true _ _).1 hcalloc
  obtain ⟨rfl, ha⟩ := of_decide_eq_true hok₁
  obtain ⟨rfl, ha'⟩ := of_decide_eq_true hok₂
  have hbad : ∀ {b : Arena} {e n : ℕ}, b.bounds = (0x1000, e) → e < n → ¬ Honoured n (some (0x1018, b)) := by
    rintro b e n hb hlt ⟨p, a, heq, hp⟩
    obtain ⟨rfl, rfl⟩ := Prod.mk.inj (Option.some.inj heq)
    obtain ⟨-, hend⟩ := Prod.mk.inj hb
    obtain ⟨-, h₂, -⟩ := hp (by decide)
    omega
  refine ⟨_, a, a', hok, hm, ha, hc, ha', hm ▸ hbad ha (by decide), hc ▸ hbad ha' (by decide), ?_⟩
  rw [hok.malloc_stuck (by decide) (fun ⟨b, hb, _⟩ => by cases hb) (by simp [SbrkOk, extension, neededBytes, hdrSize])]
  rintro ⟨_, _, ⟨⟩, -⟩

end LighthOS
