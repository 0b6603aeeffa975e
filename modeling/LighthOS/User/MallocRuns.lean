/-
# Runs of the user heap

Any sequence of `malloc`, `realloc` and `free` of pointers in use and of writes of
the program to what it was handed, with any answers of `sys_sbrk` that extend the
arena.  In every state the blocks tile the arena, each knows the size of the one
before it, the free list has the free blocks, and what was handed out is aligned,
large enough and apart (`malloc_tiled`).

The mark in its header tells `free` that a block is free already.  It does so as long as the
block is one of the arena (`free_twice_ignored`); a block that was absorbed by a neighbour has
lost its mark, and is merged a second time (`free_twice_absorbed`).
-/

import LighthOS.User.MallocCalls
import LighthOS.Lib.System

namespace LighthOS

open Tiling (Tiles)

/-- The arena and the pointers in use, with the sizes that were asked for. -/
structure MallocState where
  arena : Arena
  live : ℕ → Option ℕ

/-- What a program does; `raw` is what `sys_sbrk` returns if it is called, and `write p i v`
stores to the byte `i` at `p`. -/
inductive MallocOp
  | malloc (n : ℕ) (raw : Option ℕ)
  | realloc (p n : ℕ) (raw : Option ℕ)
  | free (p : ℕ)
  | write (p i v : ℕ)

/-- The bytes that `grow_arena` asks for on a call for `n` bytes. -/
def grownBytes (n : ℕ) : ℕ := (neededBytes n + 4095) / 4096 * 4096

theorem neededBytes_lt {n : ℕ} (hn : n < 2 ^ 31) : neededBytes n + 4095 < 2 ^ 32 := by
  simp only [neededBytes, hdrSize]
  omega

theorem grownBytes_eq {n : ℕ} (hn : n < 2 ^ 31) : grownBytes n = extension n := by
  rw [grownBytes, extension, Nat.mod_eq_of_lt (neededBytes_lt hn)]

/-- Only null and pointers in use are passed on, and only their bytes are written. -/
def MallocOp.Possible (s : MallocState) : MallocOp → Prop
  | .malloc n raw => n < 2 ^ 31 ∧ SbrkOk s.arena (grownBytes n) raw
  | .realloc p n raw =>
      (p = 0 ∨ (s.live p).isSome = true) ∧ n < 2 ^ 31 ∧ SbrkOk s.arena (grownBytes n) raw
  | .free p => p = 0 ∨ (s.live p).isSome = true
  | .write p i _ => ∃ n, s.live p = some n ∧ i < n

/-- The pointers in use after `p` was handed out for `n` bytes, unless it is null. -/
def handOut (live : ℕ → Option ℕ) (p n : ℕ) : ℕ → Option ℕ :=
  if p = 0 then live else Function.update live p (some n)

/-- One step; none where a call does not return.  A `realloc` that fails leaves the old
pointer in use, but for `realloc(p, 0)`, which is `free(p)`. -/
def mallocStep (s : MallocState) : MallocOp → Option MallocState
  | .malloc n raw => (malloc s.arena n raw).map fun r => ⟨r.2, handOut s.live r.1 n⟩
  | .realloc p n raw => (realloc s.arena p n raw).map fun r =>
      ⟨r.2, handOut (if r.1 = 0 ∧ n ≠ 0 then s.live else Function.update s.live p none) r.1 n⟩
  | .free p => (free s.arena p).map fun a => ⟨a, Function.update s.live p none⟩
  | .write p i v =>
      some { s with arena := { s.arena with mem := Function.update s.arena.mem (p + i) v } }

/-- A program starts without an arena, in any memory. -/
def mallocSystem : System MallocState MallocOp :=
  (System.ofFun (fun s => ∃ mem, s = ⟨⟨mem, 0, 0, 0⟩, fun _ => none⟩) mallocStep).restrict
    fun s op => op.Possible s

/-! ### The invariant -/

/-- The blocks in use are those that were handed out and not given back. -/
structure LiveOk (live : ℕ → Option ℕ) (s : Arena) (l : List ℕ) : Prop where
  used : ∀ x, InUse s l x → (live (x + hdrSize)).isSome = true
  block : ∀ p n, live p = some n → ∃ x, p = x + hdrSize ∧ InUse s l x ∧ n + hdrSize ≤ (s.hdr x).size

/-- The invariant. -/
structure MallocInv (s : MallocState) (l fl : List ℕ) : Prop where
  arena : ArenaOk s.arena l fl
  live : LiveOk s.live s.arena l

section Live

variable {live live' : ℕ → Option ℕ} {s s' : Arena} {l l' : List ℕ} {gone new : Set ℕ} {b c n : ℕ}

/-- **What a call does to the pointers in use.** -/
theorem LiveOk.step (h : LiveOk live s l) (heff : Effect s l s' l' gone new)
    (hnew : ∀ x ∈ new, ∃ n, live' (x + hdrSize) = some n ∧ n + hdrSize ≤ (s'.hdr x).size)
    (hgone : ∀ x ∈ gone, x ∉ new → live' (x + hdrSize) = none)
    (hkeep : ∀ p, (∀ x ∈ gone, p ≠ x + hdrSize) → (∀ x ∈ new, p ≠ x + hdrSize) → live' p = live p) :
    LiveOk live' s' l' := by
  have hother : ∀ x, x ∉ gone → x ∉ new → live' (x + hdrSize) = live (x + hdrSize) := by
    intro x hg hn
    refine hkeep _ (fun y hy heq => hg ?_) fun y hy heq => hn ?_
    · rwa [Nat.add_right_cancel heq]
    · rwa [Nat.add_right_cancel heq]
  constructor
  · intro x hx
    by_cases hn : x ∈ new
    · obtain ⟨n, hlive, -⟩ := hnew x hn
      simp [hlive]
    · obtain ⟨hx, hg⟩ := ((heff.used x).1 hx).resolve_right hn
      rw [hother x hg hn]
      exact h.used x hx
  · intro p n hp
    by_cases hn : ∃ x ∈ new, p = x + hdrSize
    · obtain ⟨x, hx, rfl⟩ := hn
      obtain ⟨m, hlive, hm⟩ := hnew x hx
      rw [hlive, Option.some.injEq] at hp
      exact ⟨x, rfl, (heff.used x).2 (Or.inr hx), by omega⟩
    · push Not at hn
      by_cases hg : ∃ x ∈ gone, p = x + hdrSize
      · obtain ⟨x, hx, rfl⟩ := hg
        rw [hgone x hx fun hx' => hn x hx' rfl] at hp
        cases hp
      · push Not at hg
        rw [hkeep p hg hn] at hp
        obtain ⟨x, rfl, hx, hsize⟩ := h.block p n hp
        have hxg : x ∉ gone := fun hx' => hg x hx' rfl
        exact ⟨x, rfl, (heff.used x).2 (Or.inl ⟨hx, hxg⟩), by rw [heff.size x hx hxg]; exact hsize⟩

theorem LiveOk.handOut (h : LiveOk live s l) (heff : Effect s l s' l' ∅ {b})
    (hroom : n + hdrSize ≤ (s'.hdr b).size) : LiveOk (handOut live (b + hdrSize) n) s' l' := by
  rw [LighthOS.handOut, if_neg (by simp [hdrSize])]
  refine h.step heff ?_ (by simp) fun p _ hp => Function.update_of_ne (hp b rfl) _ _
  rintro x rfl
  exact ⟨n, Function.update_self _ _ _, hroom⟩

theorem LiveOk.free (h : LiveOk live s l) (heff : Effect s l s' l' {b} ∅) :
    LiveOk (Function.update live (b + hdrSize) none) s' l' := by
  refine h.step heff (by simp) ?_ fun p hp _ => Function.update_of_ne (hp b rfl) _ _
  rintro x rfl -
  exact Function.update_self _ _ _

theorem LiveOk.move (h : LiveOk live s l) (heff : Effect s l s' l' {b} {c})
    (hroom : n + hdrSize ≤ (s'.hdr c).size) :
    LiveOk (LighthOS.handOut (Function.update live (b + hdrSize) none) (c + hdrSize) n) s' l' := by
  rw [LighthOS.handOut, if_neg (by simp [hdrSize])]
  refine h.step heff ?_ ?_ fun p hp hp' => ?_
  · rintro x rfl
    exact ⟨n, Function.update_self _ _ _, hroom⟩
  · rintro x rfl hx
    rw [Function.update_of_ne (by simpa using hx), Function.update_self]
  · rw [Function.update_of_ne (hp' c rfl), Function.update_of_ne (hp b rfl)]

end Live

namespace MallocInv

variable {s : MallocState} {l fl : List ℕ} {p n : ℕ} {raw : Option ℕ}

theorem init (mem : Cells) : MallocInv ⟨⟨mem, 0, 0, 0⟩, fun _ => none⟩ [] [] :=
  ⟨⟨⟨rfl, trivial, by simp, by simp, rfl, by simp, by simp, rfl, List.nodup_nil, by simp⟩, by simp [FlagsOk],
    fun h => absurd rfl h⟩, fun x hx => by simp [InUse] at hx, by simp⟩

section

variable (h : MallocInv s l fl)
include h

/-- The block of a pointer in use. -/
theorem block (hp : (s.live p).isSome = true) : ∃ b, p = b + hdrSize ∧ InUse s.arena l b := by
  obtain ⟨m, hm⟩ := Option.isSome_iff_exists.1 hp
  obtain ⟨b, rfl, hb, -⟩ := h.live.block p m hm
  exact ⟨b, rfl, hb⟩

/-- The pointer to a block that is not in use was not handed out. -/
theorem fresh {b : ℕ} (hb : ¬InUse s.arena l b) : s.live (b + hdrSize) = none := by
  by_contra hlive
  obtain ⟨c, hc, hused⟩ := h.block (Option.ne_none_iff_isSome.1 hlive)
  exact hb (Nat.add_right_cancel hc ▸ hused)

/-- Null is not in use. -/
theorem live_zero : s.live 0 = none := by
  by_contra h₀
  obtain ⟨b, hb, -⟩ := h.block (Option.ne_none_iff_isSome.1 h₀)
  simp [hdrSize] at hb

theorem update_zero : Function.update s.live 0 none = s.live :=
  Function.update_eq_self_iff.2 h.live_zero.symm

/-- **`malloc`** gives a pointer not in use, and fails only where `sys_sbrk` does. -/
theorem malloc (hn : n < 2 ^ 31) (hraw : SbrkOk s.arena (grownBytes n) raw) :
    ∃ q a, malloc s.arena n raw = some (q, a) ∧ (q = 0 → n = 0 ∨ raw = none) ∧ s.live q = none ∧
      ∃ l' fl', MallocInv ⟨a, LighthOS.handOut s.live q n⟩ l' fl' := by
  by_cases hz : n = 0
  · exact ⟨0, s.arena, if_pos hz, fun _ => Or.inl hz, h.live_zero, l, fl, h⟩
  rcases h.arena.malloc hz (by omega) (Or.inr (neededBytes_lt hn)) (grownBytes_eq hn ▸ hraw) with ⟨hm, hnone, -⟩ | ⟨b, a, l', fl', hm, hok, hh⟩
  · exact ⟨0, s.arena, hm, fun _ => Or.inr hnone, h.live_zero, l, fl, h⟩
  · exact ⟨_, a, hm, fun h₀ => by simp [hdrSize] at h₀, h.fresh hh.fresh, l', fl', hok,
      h.live.handOut hh.effect hh.room⟩

/-- **`free`** of null or of a pointer in use. -/
theorem free (hp : p = 0 ∨ (s.live p).isSome = true) :
    ∃ a, free s.arena p = some a ∧ ∃ l' fl', MallocInv ⟨a, Function.update s.live p none⟩ l' fl' := by
  rcases hp with rfl | hp
  · refine ⟨s.arena, if_pos rfl, l, fl, h.arena, ?_⟩
    rw [h.update_zero]
    exact h.live
  · obtain ⟨b, rfl, hb⟩ := h.block hp
    obtain ⟨a, l', fl', hf, hok, heff⟩ := h.arena.free hb
    exact ⟨a, hf, l', fl', hok, h.live.free heff⟩

/-- **`realloc`** of a pointer in use to some bytes keeps them, at the same pointer or at one not
in use. -/
theorem realloc (hp : (s.live p).isSome = true) (hz : n ≠ 0) (hn : n < 2 ^ 31)
    (hraw : SbrkOk s.arena (grownBytes n) raw) :
    ∃ q a, realloc s.arena p n raw = some (q, a) ∧ (q = 0 → a = s.arena ∧ raw = none) ∧
      (q ≠ p → s.live q = none) ∧ (q ≠ 0 → ∀ i, i < (s.arena.hdr (p - hdrSize)).size - hdrSize → i < n →
        a.mem (q + i) = s.arena.mem (p + i)) ∧
      ∃ l' fl', MallocInv
        ⟨a, LighthOS.handOut (if q = 0 ∧ n ≠ 0 then s.live else Function.update s.live p none) q n⟩ l' fl' := by
  obtain ⟨b, rfl, hb⟩ := h.block hp
  rcases h.arena.realloc hb hz (by omega) (Or.inr (neededBytes_lt hn)) (grownBytes_eq hn ▸ hraw) with
    ⟨hr, hnone⟩ | ⟨c, a, l', fl', hr, hok, heff, hfresh, hroom, hbytes⟩
  · exact ⟨0, s.arena, hr, fun _ => ⟨rfl, hnone⟩, fun _ => h.live_zero, fun h₀ => absurd rfl h₀, l, fl,
      by simpa [hz, LighthOS.handOut] using h⟩
  · refine ⟨_, a, hr, fun h₀ => by simp [hdrSize] at h₀, fun hne => h.fresh (hfresh ?_), fun _ => ?_, l', fl', hok, ?_⟩
    · rintro rfl
      exact hne rfl
    · rw [Nat.add_sub_cancel]
      exact hbytes
    · simp only
      rw [if_neg (by simp [hdrSize])]
      exact h.live.move heff hroom

/-- A program may write to what it was handed. -/
theorem write {i v : ℕ} (hp : s.live p = some n) (hi : i < n) :
    MallocInv { s with arena := { s.arena with mem := Function.update s.arena.mem (p + i) v } } l fl := by
  obtain ⟨b, rfl, hb, hroom⟩ := h.live.block p n hp
  obtain ⟨hok, heff, hhdr⟩ := h.arena.write hb (Function.update s.arena.mem (b + hdrSize + i) v)
    fun z hz => Function.update_of_ne (by omega) _ _
  refine ⟨hok, fun x hx => ?_, fun q m hq => ?_⟩
  · refine h.live.used x ⟨hx.1, ?_⟩
    rw [← hhdr x hx.1]
    exact hx.2
  · obtain ⟨x, rfl, hx, hm⟩ := h.live.block q m hq
    exact ⟨x, rfl, ⟨hx.1, by rw [hhdr x hx.1]; exact hx.2⟩, by rw [hhdr x hx.1]; exact hm⟩

/-- **Every step** keeps the invariant. -/
theorem step {op : MallocOp} {s' : MallocState} (hposs : op.Possible s)
    (hstep : mallocStep s op = some s') : ∃ l' fl', MallocInv s' l' fl' := by
  cases op with
  | malloc n raw =>
      obtain ⟨q, a, hm, -, -, hinv⟩ := h.malloc hposs.1 hposs.2
      obtain ⟨r, hr, rfl⟩ := Option.map_eq_some_iff.1 hstep
      rw [hm, Option.some.injEq] at hr
      exact hr ▸ hinv
  | realloc p n raw =>
      obtain ⟨hp, hn, hraw⟩ := hposs
      obtain ⟨r, hr, rfl⟩ := Option.map_eq_some_iff.1 hstep
      by_cases hp₀ : p = 0
      · -- `realloc(0, n)` is `malloc(n)`
        obtain ⟨q, a, hm, -, -, hinv⟩ := h.malloc hn hraw
        rw [LighthOS.realloc, if_pos hp₀, hm, Option.some.injEq] at hr
        rw [hp₀, h.update_zero, ite_self]
        exact hr ▸ hinv
      have hp := hp.resolve_left hp₀
      by_cases hz : n = 0
      · -- `realloc(p, 0)` is `free(p)`
        obtain ⟨a, hf, hinv⟩ := h.free (Or.inr hp)
        rw [LighthOS.realloc, if_neg hp₀, if_pos hz, hf, Option.map_some, Option.some.injEq] at hr
        simpa [← hr, hz, handOut] using hinv
      · obtain ⟨q, a, hm, -, -, -, hinv⟩ := h.realloc hp hz hn hraw
        rw [hm, Option.some.injEq] at hr
        exact hr ▸ hinv
  | free p =>
      obtain ⟨a, hf, hinv⟩ := h.free hposs
      obtain ⟨r, hr, rfl⟩ := Option.map_eq_some_iff.1 hstep
      rw [hf, Option.some.injEq] at hr
      exact hr ▸ hinv
  | write p i v =>
      obtain ⟨n, hp, hi⟩ := hposs
      obtain rfl := Option.some.inj hstep
      exact ⟨l, fl, h.write hp hi⟩

end

end MallocInv

/-- The invariant holds in every state. -/
theorem mallocSystem_inv {s : MallocState} (h : mallocSystem.Reaches s) : ∃ l fl, MallocInv s l fl := by
  refine h.invariant (I := fun s => ∃ l fl, MallocInv s l fl) (fun s₀ hs₀ => ?_)
    fun s₁ op s₂ ⟨l, fl, hinv⟩ ⟨hposs, hstep⟩ => hinv.step hposs hstep
  obtain ⟨mem, rfl⟩ := hs₀
  exact ⟨[], [], MallocInv.init mem⟩

/-! ### What holds in every state -/

/-- The bytes that a pointer in use may hold, behind the header of its block. -/
def payload (s : Arena) (p : ℕ) : ℕ := (s.hdr (p - hdrSize)).size - hdrSize

/-- What the user heap promises, with its blocks `l` and the free ones `fl`. -/
structure MallocOk (s : MallocState) (l fl : List ℕ) : Prop where
  tiles : Tiles id (fun b => (s.arena.hdr b).size) s.arena.arenaStart l s.arena.arenaEnd
  prevSizes : Prevs s.arena 0 l
  freeList : Linked.nodes (nextFree s.arena) addressSpace (toPtr s.arena.freeHead) = some fl
  nodup : fl.Nodup
  free_iff : ∀ b, b ∈ fl ↔ b ∈ l ∧ (s.arena.hdr b).free = true
  live : ∀ p n, s.live p = some n → p % 8 = 0 ∧ n ≤ payload s.arena p ∧
    (∃ b, InUse s.arena l b ∧ p = b + hdrSize ∧ p + payload s.arena p = b + (s.arena.hdr b).size) ∧
    ∀ q m, s.live q = some m → q ≠ p → p + payload s.arena p ≤ q ∨ q + payload s.arena q ≤ p
  used : ∀ b, InUse s.arena l b → (s.live (b + hdrSize)).isSome = true
  malloc : ∀ n raw, n < 2 ^ 31 → SbrkOk s.arena (grownBytes n) raw →
    ∃ p a, malloc s.arena n raw = some (p, a) ∧ (p = 0 → n = 0 ∨ raw = none) ∧ s.live p = none
  free : ∀ p, (s.live p).isSome = true → (free s.arena p).isSome = true
  realloc : ∀ p n raw, (s.live p).isSome = true → n ≠ 0 → n < 2 ^ 31 → SbrkOk s.arena (grownBytes n) raw →
    ∃ q a, realloc s.arena p n raw = some (q, a) ∧ (q = 0 → a = s.arena ∧ raw = none) ∧
      (q ≠ p → s.live q = none) ∧ (q ≠ 0 → ∀ i < min (payload s.arena p) n, a.mem (q + i) = s.arena.mem (p + i))

theorem MallocInv.ok {s : MallocState} {l fl : List ℕ} (h : MallocInv s l fl) : MallocOk s l fl where
  tiles := h.arena.shape.tiles
  prevSizes := h.arena.shape.prevs
  freeList := Linked.nodes_eq h.arena.shape.chain h.arena.shape.length_le
  nodup := h.arena.shape.nodup
  free_iff b := ⟨h.arena.mem_free, fun hb => (h.arena.flags b hb.1).1 hb.2⟩
  live p n hp := by
    obtain ⟨b, rfl, hb, hn⟩ := h.live.block p n hp
    have halign := h.arena.shape.aligned b hb.1
    have hroom := h.arena.shape.room b hb.1
    simp only [payload, Nat.add_sub_cancel]
    simp only [hdrSize] at *
    refine ⟨by omega, by omega, ⟨b, hb, rfl, by omega⟩, fun q m hq hne => ?_⟩
    obtain ⟨c, rfl, hc, -⟩ := h.live.block q m hq
    have hroom' := h.arena.shape.room c hc.1
    simp only [hdrSize, Nat.add_sub_cancel] at *
    rcases h.arena.shape.tiles.eq_or_apart hb.1 hc.1 with rfl | hd | hd
    · exact absurd rfl hne
    · simp only [id] at hd
      omega
    · simp only [id] at hd
      omega
  used := h.live.used
  malloc n raw hn hraw := by
    obtain ⟨p, a, hm, hnull, hfresh, -⟩ := h.malloc hn hraw
    exact ⟨p, a, hm, hnull, hfresh⟩
  free p hp := by
    obtain ⟨a, hf, -⟩ := h.free (Or.inr hp)
    simp [hf]
  realloc p n raw hp hz hn hraw := by
    obtain ⟨q, a, hr, hnull, hfresh, hbytes, -⟩ := h.realloc hp hz hn hraw
    exact ⟨q, a, hr, hnull, hfresh, fun hq i hi => hbytes hq i (by simp only [payload] at hi; omega) (by omega)⟩

/-- **The user heap keeps its shape.**  In every state that calls of `malloc` and `realloc`
with less than `2^31` bytes, `free` of pointers in use and writes to what was handed out
lead to, the blocks tile the arena, each knows the size of the one before it, the free
list runs through the free blocks once each, the other blocks are those handed out,
aligned, large enough and apart, every call returns, with a pointer that was not in use,
and fails only where `sys_sbrk` does, and `realloc` keeps the bytes. -/
theorem malloc_tiled {s : MallocState} (h : mallocSystem.Reaches s) : ∃ l fl, MallocOk s l fl := by
  obtain ⟨l, fl, hinv⟩ := mallocSystem_inv h
  exact ⟨l, fl, hinv.ok⟩

/-- The hypothesis of `malloc_tiled` is satisfiable: 100 bytes in a new arena of a page, which
then move to 200. -/
theorem malloc_tiled_realloc : ∃ s l fl, s.live 0x1098 = some 200 ∧ MallocOk s l fl := by
  have hrun : ((mallocStep ⟨⟨fun _ => 0, 0, 0, 0⟩, fun _ => none⟩ (.malloc 100 (some 0x1000))).bind
      fun s => if (s.live 0x1018).isSome then mallocStep s (.realloc 0x1018 200 none) else none).any
      (fun s => s.live 0x1098 = some 200) = true := by decide +kernel
  obtain ⟨s₂, hs₂, hlive⟩ := (Option.any_eq_true _ _).1 hrun
  obtain ⟨s₁, hs₁, hs₂⟩ := Option.bind_eq_some_iff.1 hs₂
  split_ifs at hs₂ with hp
  have hinit : mallocSystem.Reaches ⟨⟨fun _ => 0, 0, 0, 0⟩, fun _ => none⟩ := .init ⟨_, rfl⟩
  have hposs : (MallocOp.malloc 100 (some 0x1000)).Possible ⟨⟨fun _ => 0, 0, 0, 0⟩, fun _ => none⟩ :=
    ⟨by decide, by simp [SbrkOk, grownBytes, neededBytes, hdrSize]⟩
  have hposs' : (MallocOp.realloc 0x1018 200 none).Possible s₁ := ⟨Or.inr hp, by decide, trivial⟩
  have hreach₁ : mallocSystem.Reaches s₁ := hinit.step (a := .malloc 100 (some 0x1000)) ⟨hposs, hs₁⟩
  have hreach₂ : mallocSystem.Reaches s₂ := hreach₁.step (a := .realloc 0x1018 200 none) ⟨hposs', hs₂⟩
  obtain ⟨l, fl, hok⟩ := malloc_tiled hreach₂
  exact ⟨s₂, l, fl, of_decide_eq_true hlive, hok⟩

/-! ### Freeing twice -/

/-- **Freeing twice is ignored where the block was not absorbed:** in every state, `free` of a
pointer that is not in use, but whose block is still one of the arena, changes nothing. -/
theorem free_twice_ignored {s : MallocState} (h : mallocSystem.Reaches s) {p : ℕ} (hp : s.live p = none) {l : List ℕ}
    (hl : arenaBlocks s.arena = some l) (hb : p - hdrSize ∈ l) : free s.arena p = some s.arena := by
  obtain ⟨l', fl, hinv⟩ := mallocSystem_inv h
  obtain rfl : l' = l := Option.some.inj ((hinv.arena.shape.arenaBlocks_eq rfl rfl fun _ _ => rfl).symm.trans hl)
  have hne := hinv.arena.shape.pos _ hb
  have hptr : p - hdrSize + hdrSize = p := Nat.sub_add_cancel (by omega)
  have hfree : (s.arena.hdr (p - hdrSize)).free = true := by
    -- a block that is marked as in use was handed out and not given back
    by_contra hused
    have hlive := hinv.live.used (p - hdrSize) ⟨hb, by simpa using hused⟩
    rw [hptr, hp] at hlive
    cases hlive
  unfold LighthOS.free
  rw [if_neg (by simp only [hdrSize] at hne; omega)]
  dsimp only
  rw [if_pos hfree]

/-- Two blocks of 100 bytes in a new arena of a page. -/
def twoBlocks : Option MallocState :=
  (mallocStep ⟨⟨fun _ => 0, 0, 0, 0⟩, fun _ => none⟩ (.malloc 100 (some 0x1000))).bind
    fun s => mallocStep s (.malloc 100 none)

theorem reaches_twoBlocks {s : MallocState} (h : twoBlocks = some s) : mallocSystem.Reaches s := by
  obtain ⟨s₁, hs₁, hs⟩ := Option.bind_eq_some_iff.1 h
  have hposs : (MallocOp.malloc 100 (some 0x1000)).Possible ⟨⟨fun _ => 0, 0, 0, 0⟩, fun _ => none⟩ :=
    ⟨by decide, by simp [SbrkOk, grownBytes, neededBytes, hdrSize]⟩
  have h₁ : mallocSystem.Reaches s₁ := .step (.init ⟨_, rfl⟩) (a := .malloc 100 (some 0x1000)) ⟨hposs, hs₁⟩
  exact h₁.step (a := .malloc 100 none) ⟨⟨by decide, trivial⟩, hs⟩

/-- The first of them is freed. -/
def firstFreed : Option MallocState :=
  twoBlocks.bind fun s => if (s.live 0x1018).isSome then mallocStep s (.free 0x1018) else none

theorem reaches_firstFreed {s : MallocState} (h : firstFreed = some s) : mallocSystem.Reaches s := by
  obtain ⟨s₁, hs₁, hs⟩ := Option.bind_eq_some_iff.1 h
  split_ifs at hs with hp
  exact (reaches_twoBlocks hs₁).step (a := .free 0x1018) ⟨Or.inr hp, hs⟩

/-- The hypotheses of `free_twice_ignored` are satisfiable: the first of two blocks is freed twice. -/
theorem free_twice_first_block : ∃ s : MallocState, mallocSystem.Reaches s ∧ free s.arena 0x1018 = some s.arena := by
  have hrun : firstFreed.any
      (fun s => s.live 0x1018 = none ∧ arenaBlocks s.arena = some [0x1000, 0x1080, 0x1100]) = true := by
    decide +kernel
  obtain ⟨s₂, hs₂, hok⟩ := (Option.any_eq_true _ _).1 hrun
  have hreach := reaches_firstFreed hs₂
  obtain ⟨hlive, hl⟩ := of_decide_eq_true hok
  exact ⟨s₂, hreach, free_twice_ignored hreach hlive hl (by decide)⟩

/-- **An absorbed block is freed twice:** the block before it takes it in a second time, and ends
behind the arena. -/
theorem free_twice_absorbed : ∃ (s s' : MallocState) (a : Arena), mallocSystem.Reaches s ∧
    s.live 0x1098 = some 100 ∧ mallocStep s (.free 0x1098) = some s' ∧ free s'.arena 0x1098 = some a ∧
    (s'.arena.hdr 0x1000).size = 4096 ∧ (a.hdr 0x1000).size = 8064 ∧ a.arenaEnd = 0x2000 := by
  have hrun : firstFreed.any
      (fun s => s.live 0x1098 = some 100 ∧ (mallocStep s (.free 0x1098)).any fun s' =>
        (s'.arena.hdr 0x1000).size = 4096 ∧ (free s'.arena 0x1098).any fun a =>
          (a.hdr 0x1000).size = 8064 ∧ a.arenaEnd = 0x2000) = true := by
    decide +kernel
  obtain ⟨s₂, hs₂, hok⟩ := (Option.any_eq_true _ _).1 hrun
  have hreach := reaches_firstFreed hs₂
  obtain ⟨hlive, hok⟩ := of_decide_eq_true hok
  obtain ⟨s', hs', hok⟩ := (Option.any_eq_true _ _).1 hok
  obtain ⟨hsize, hok⟩ := of_decide_eq_true hok
  obtain ⟨a, ha, hok⟩ := (Option.any_eq_true _ _).1 hok
  exact ⟨s₂, s', a, hreach, hlive, hs', ha, hsize, of_decide_eq_true hok⟩

end LighthOS
