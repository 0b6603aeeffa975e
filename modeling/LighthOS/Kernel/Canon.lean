/-
# The buffer of `canon_into`

`canonInto` keeps what `canon_into` has written as a list.  Here the function is at the level
of its buffer: an index that moves forward with each byte and back over a component at each
`..`, with what was written behind it still in place, and two tests against the capacity
(`canonIntoBuf`).  It computes the same (`canonIntoBuf_refines`), and what both compute is what
the components of the joined path make (`canonRef`), for every path.

`process_resolve_path` puts the root of the process in front of the result without a test of
its own: it copies what fits.  So it reports success with a part of the path exactly where
the whole path is too long (`resolvesExactly_iff`).
-/

import LighthOS.Kernel.Chdir

namespace LighthOS

/-! ### The function -/

/-- The buffer `out` with the index `oi`; for specifications, the indices that were written. -/
structure CanonOut where
  buf : ℕ → Char
  oi : ℕ
  writes : List ℕ

namespace CanonOut

/-- `out[oi++] = c`. -/
def push (o : CanonOut) (c : Char) : CanonOut := ⟨Function.update o.buf o.oi c, o.oi + 1, o.oi :: o.writes⟩

/-- `while (oi > 1 && out[oi-1] != '/') oi--`. -/
def scanBack (buf : ℕ → Char) : ℕ → ℕ
  | 0 => 0
  | 1 => 1
  | n + 2 => if buf (n + 1) ≠ '/' then scanBack buf (n + 1) else n + 2

/-- A `..`: walk back one segment, but stay at the root. -/
def walkBack (o : CanonOut) : CanonOut :=
  if 1 < o.oi then { o with oi := scanBack o.buf (o.oi - 1) } else o

/-- The end: strip the slash except at the root, and store the terminator. -/
def finish (o : CanonOut) : CanonOut :=
  let oi := if 1 < o.oi ∧ o.buf (o.oi - 1) = '/' then o.oi - 1 else o.oi
  ⟨Function.update o.buf oi '\x00', oi, oi :: o.writes⟩

/-- What stands before the index. -/
def text (o : CanonOut) : CString := (List.range o.oi).map o.buf

end CanonOut

/-- The loop of `canon_into` over the rest of `tmp`, with at most `n` rounds; whether it came
to the end. -/
def canonWalk (cap : ℕ) : ℕ → CString → CanonOut → Bool × CanonOut
  | 0, _, o => (true, o)
  | _ + 1, [], o => (true, o)
  | n + 1, c :: rest, o =>
      -- collapse `//`
      if c = '/' then canonWalk cap n rest o
      else
        let seg := (c :: rest).takeWhile (· != '/')
        let rest := (c :: rest).dropWhile (· != '/')
        if seg = ['.'] then canonWalk cap n rest o
        else if seg = ['.', '.'] then canonWalk cap n rest o.walkBack
        else if cap ≤ o.oi + seg.length + 1 then (false, o)
        else canonWalk cap n rest ((seg.foldl CanonOut.push o).push '/')

/-- `canon_into`, with what the buffer holds before; whether it returns `0`.  Each round of the
loop takes a byte of `tmp` at least. -/
def canonIntoBuf (path cwd : CString) (buf : ℕ → Char) (cap : ℕ) : Bool × CanonOut :=
  match canonTmp path cwd with
  | none => (false, ⟨buf, 0, []⟩)
  | some tmp =>
      let rest := if tmp.head? = some '/' then tmp.tail else tmp
      match canonWalk cap rest.length rest (CanonOut.push ⟨buf, 0, []⟩ '/') with
      | (true, o) => (true, o.finish)
      | (false, o) => (false, o)

/-! ### The reference -/

/-- The path that is meant: itself if it is absolute, and otherwise behind the working
directory. -/
def joinedPath (path cwd : CString) : CString := if path.head? = some '/' then path else cwd ++ '/' :: path

/-- **What `canon_into` is for**: the components of the joined path, without empty ones and
`.`, and with `..` taking one away where there is one. -/
def canonRef (path cwd : CString) : CString := joinPath (resolved (joinedPath path cwd))

/-! ### The buffer and its text -/

namespace CanonOut

variable {o : CanonOut} {cap : ℕ}

@[simp] theorem length_text (o : CanonOut) : o.text.length = o.oi := by simp [text]

@[simp] theorem oi_push (o : CanonOut) (c : Char) : (o.push c).oi = o.oi + 1 := rfl

theorem text_push (o : CanonOut) (c : Char) : (o.push c).text = o.text ++ [c] := by
  have hold : (List.range o.oi).map (o.push c).buf = (List.range o.oi).map o.buf := by
    refine List.map_congr_left fun i hi => ?_
    have := List.mem_range.1 hi
    exact Function.update_of_ne (by omega) _ _
  rw [text, oi_push, List.range_succ, List.map_append, hold, List.map_singleton]
  simp [text, push]

theorem text_foldl_push (o : CanonOut) (seg : CString) : (seg.foldl push o).text = o.text ++ seg := by
  induction seg generalizing o with
  | nil => simp
  | cons c seg ih => rw [List.foldl_cons, ih, text_push, List.append_assoc, List.singleton_append]

theorem oi_foldl_push (o : CanonOut) (seg : CString) : (seg.foldl push o).oi = o.oi + seg.length := by
  rw [← length_text, text_foldl_push, List.length_append, length_text]

/-- The walk back over the buffer is that over the list, which has a slash at its start. -/
theorem map_scanBack {buf : ℕ → Char} (h₀ : buf 0 = '/') {n : ℕ} (hn : 0 < n) :
    (List.range (scanBack buf n)).map buf = ((List.range n).map buf).rdropWhile (· != '/') := by
  induction n with
  | zero => omega
  | succ n ih =>
      cases n with
      | zero => simp [scanBack, h₀, List.rdropWhile]
      | succ n =>
          rw [scanBack, List.range_succ, List.map_append, List.map_singleton]
          split_ifs with hc
          · rw [ih (by omega), List.rdropWhile_concat_pos _ _ _ (by simp [hc])]
          · rw [List.rdropWhile_concat_neg _ _ _ (by simpa using hc), List.range_succ, List.map_append,
              List.map_singleton]

theorem text_walkBack (h₀ : o.buf 0 = '/') : o.walkBack.text = dropSegment o.text := by
  unfold walkBack dropSegment
  rw [length_text]
  split_ifs with h
  · obtain ⟨n, hn⟩ := Nat.exists_eq_add_of_lt h
    have hdrop : o.text.dropLast = (List.range (o.oi - 1)).map o.buf := by
      rw [text, show o.oi = o.oi - 1 + 1 by omega, List.range_succ, List.map_append, List.map_singleton,
        List.dropLast_concat, Nat.add_sub_cancel]
    rw [hdrop, ← map_scanBack h₀ (by omega)]
    rfl
  · rfl

theorem scanBack_le (buf : ℕ → Char) (n : ℕ) : scanBack buf n ≤ n := by
  induction n with
  | zero => rfl
  | succ n ih =>
      cases n with
      | zero => rfl
      | succ n =>
          rw [scanBack]
          split_ifs
          · omega
          · rfl

theorem getLast?_text (h : 0 < o.oi) : o.text.getLast? = some (o.buf (o.oi - 1)) := by
  obtain ⟨n, hn⟩ := Nat.exists_eq_add_of_lt h
  rw [Nat.zero_add] at hn
  rw [text, hn, List.range_succ, List.map_append, List.map_singleton, List.getLast?_append_of_ne_nil _ (by simp)]
  simp

theorem text_finish (o : CanonOut) : o.finish.text = stripSlash o.text := by
  have hcut : ∀ oi ≤ o.oi, (List.range oi).map (Function.update o.buf oi '\x00') = o.text.take oi := by
    intro oi hle
    rw [text, ← List.map_take, List.take_range, Nat.min_eq_left hle]
    refine List.map_congr_left fun i hi => Function.update_of_ne ?_ _ _
    have := List.mem_range.1 hi
    omega
  have hslash : 1 < o.text.length ∧ o.text.getLast? = some '/' ↔ 1 < o.oi ∧ o.buf (o.oi - 1) = '/' := by
    rw [length_text]
    refine and_congr_right fun hoi => ?_
    rw [getLast?_text (by omega), Option.some.injEq]
  unfold finish stripSlash
  by_cases h : 1 < o.oi ∧ o.buf (o.oi - 1) = '/'
  · rw [if_pos h, if_pos (hslash.2 h), text, hcut _ (by omega), List.dropLast_eq_take, length_text]
  · rw [if_neg h, if_neg fun h' => h (hslash.1 h'), text, hcut _ le_rfl,
      List.take_of_length_le (by rw [length_text])]

/-- The writes so far are in the buffer, and so is the next one; the path is absolute. -/
structure InBounds (cap : ℕ) (o : CanonOut) : Prop where
  writes : ∀ i ∈ o.writes, i < cap
  next : o.oi < cap
  pos : 0 < o.oi
  slash : o.buf 0 = '/'

theorem InBounds.push (h : InBounds cap o) (hnext : o.oi + 1 < cap) (c : Char) : InBounds cap (o.push c) := by
  refine ⟨fun i hi => ?_, hnext, Nat.succ_pos _, ?_⟩
  · rcases List.mem_cons.1 hi with rfl | hi
    · exact h.next
    · exact h.writes i hi
  · have := h.pos
    exact (Function.update_of_ne (by omega) _ _).trans h.slash

theorem InBounds.foldl_push (h : InBounds cap o) {seg : CString} (hnext : o.oi + seg.length < cap) :
    InBounds cap (seg.foldl CanonOut.push o) := by
  induction seg generalizing o with
  | nil => exact h
  | cons c seg ih =>
      rw [List.length_cons] at hnext
      exact ih (h.push (by omega) c) (by rw [oi_push]; omega)

theorem InBounds.walkBack (h : InBounds cap o) : InBounds cap o.walkBack := by
  unfold CanonOut.walkBack
  split_ifs with hoi
  · have hle := scanBack_le o.buf (o.oi - 1)
    have hpos : 0 < scanBack o.buf (o.oi - 1) := by
      have hlen := congrArg List.length (map_scanBack h.slash (show 0 < o.oi - 1 by omega))
      rw [List.length_map, List.length_range] at hlen
      rw [hlen, List.length_pos_iff]
      intro hnil
      rw [List.rdropWhile_eq_nil_iff] at hnil
      have := hnil (o.buf 0) (List.mem_map.2 ⟨0, List.mem_range.2 (by omega), rfl⟩)
      rw [h.slash] at this
      exact absurd this (by decide)
    have hnext := h.next
    exact ⟨h.writes, show scanBack o.buf (o.oi - 1) < cap by omega, hpos, h.slash⟩
  · exact h

end CanonOut

/-! ### The loop -/

/-- **A segment and the rest of a path.**  What stands behind the segment starts with the next
slash, which makes an empty segment. -/
theorem foldlM_segments {β : Type} {f : β → CString → Option β} (hf : ∀ b, f b [] = some b) (l : CString) (b : β) :
    (l.splitOn '/').foldlM f b =
      (f b (l.takeWhile (· != '/'))).bind fun b' => ((l.dropWhile (· != '/')).splitOn '/').foldlM f b' := by
  have hseg : (l.takeWhile (· != '/')).splitOn '/' = [l.takeWhile (· != '/')] := by
    rw [List.splitOn_eq_splitOnP, List.splitOnP_eq_singleton]
    intro c hc
    have := List.mem_takeWhile_imp hc
    simpa using this
  have hsplit := List.takeWhile_append_dropWhile (p := (· != '/')) (l := l)
  cases hrest : l.dropWhile (· != '/') with
  | nil =>
      rw [hrest, List.append_nil] at hsplit
      have hone : l.splitOn '/' = [l.takeWhile (· != '/')] := by rw [← hseg, hsplit]
      have hnil : ([] : CString).splitOn '/' = [[]] := rfl
      rw [hone, hnil, List.foldlM_cons]
      refine congrArg _ (funext fun b' => ?_)
      rw [List.foldlM_cons, hf]
      rfl
  | cons c t =>
      have hc : c = '/' := by
        have := List.head_dropWhile_not (· != '/') (l := l) (by rw [hrest]; simp)
        simpa [hrest] using this
      subst hc
      have htail : ('/' :: t).splitOn '/' = [] :: t.splitOn '/' := by
        rw [List.splitOn_eq_splitOnP, List.splitOn_eq_splitOnP, List.splitOnP_cons_eq_if_modifyHead]
        rfl
      have hone : l.splitOn '/' = l.takeWhile (· != '/') :: t.splitOn '/' := by
        rw [hrest] at hsplit
        conv_lhs => rw [← hsplit]
        rw [List.splitOn_eq_splitOnP, List.splitOnP_append_cons _ _ (by simp), ← List.splitOn_eq_splitOnP, hseg]
        rfl
      rw [hone, htail, List.foldlM_cons]
      refine congrArg _ (funext fun b' => ?_)
      rw [List.foldlM_cons, hf]
      rfl

/-- The result of a loop as the list model has it. -/
def CanonOut.result (r : Bool × CanonOut) : Option CString := if r.1 then some r.2.text else none

/-- **The loop over the buffer** computes what the loop over segments does, and writes inside of
the buffer. -/
theorem canonWalk_refines {cap n : ℕ} {rest : CString} {o : CanonOut} (hn : rest.length ≤ n) (h : o.InBounds cap) :
    CanonOut.result (canonWalk cap n rest o) = (rest.splitOn '/').foldlM (canonSegment cap) o.text ∧
      (canonWalk cap n rest o).2.InBounds cap := by
  have hskip : ∀ out, canonSegment cap out [] = some out := fun out => rfl
  induction n generalizing rest o with
  | zero =>
      rw [List.length_eq_zero_iff.1 (Nat.le_zero.1 hn)]
      exact ⟨rfl, h⟩
  | succ n ih =>
      cases rest with
      | nil => exact ⟨rfl, h⟩
      | cons c rest =>
          rw [List.length_cons] at hn
          rw [canonWalk]
          split_ifs with hc
          · subst hc
            have htail : ('/' :: rest).splitOn '/' = [] :: rest.splitOn '/' := by
              rw [List.splitOn_eq_splitOnP, List.splitOn_eq_splitOnP, List.splitOnP_cons_eq_if_modifyHead]
              rfl
            rw [htail, List.foldlM_cons, hskip]
            exact ih (by omega) h
          rw [foldlM_segments hskip]
          -- the segment is not empty, so less is left
          have hne : (c :: rest).takeWhile (· != '/') ≠ [] := by simp [hc]
          have hlen : ((c :: rest).dropWhile (· != '/')).length ≤ n := by
            have hsum := congrArg List.length (List.takeWhile_append_dropWhile (p := (· != '/')) (l := c :: rest))
            rw [List.length_append, List.length_cons] at hsum
            have := List.length_pos_iff.2 hne
            omega
          generalize (c :: rest).takeWhile (· != '/') = seg at hne ⊢
          generalize (c :: rest).dropWhile (· != '/') = rest' at hlen ⊢
          simp only
          unfold canonSegment
          simp only [hne, false_or, CanonOut.length_text]
          split_ifs with h₁ h₂ h₃
          · exact ih hlen h
          · rw [Option.bind_some, ← CanonOut.text_walkBack h.slash]
            exact ih hlen h.walkBack
          · exact ⟨rfl, h⟩
          · have hb := (h.foldl_push (show o.oi + seg.length < cap by omega)).push (by rw [CanonOut.oi_foldl_push]; omega) '/'
            rw [Option.bind_some, ← CanonOut.text_foldl_push, ← CanonOut.text_push]
            exact ih hlen hb

/-- **The buffer level refines the list level**, and no write is outside of the buffer. -/
theorem canonIntoBuf_refines (path cwd : CString) (buf : ℕ → Char) {cap : ℕ} (hcap : 1 < cap) :
    CanonOut.result (canonIntoBuf path cwd buf cap) = canonInto path cwd cap ∧
      ∀ i ∈ (canonIntoBuf path cwd buf cap).2.writes, i < cap := by
  have hstart : (CanonOut.push ⟨buf, 0, []⟩ '/').InBounds cap :=
    ⟨fun i hi => by rw [List.mem_singleton.1 hi]; exact Nat.zero_lt_of_lt hcap, hcap, Nat.one_pos,
      by simp [CanonOut.push]⟩
  have htext : (CanonOut.push ⟨buf, 0, []⟩ '/').text = ['/'] := by rw [CanonOut.text_push]; rfl
  unfold canonIntoBuf canonInto
  cases canonTmp path cwd with
  | none => exact ⟨rfl, fun i hi => absurd hi List.not_mem_nil⟩
  | some tmp =>
      simp only [Option.bind_some]
      -- the slash at the start makes an empty segment
      have hsegs : (tmp.splitOn '/').foldlM (canonSegment cap) ['/'] =
          ((if tmp.head? = some '/' then tmp.tail else tmp).splitOn '/').foldlM (canonSegment cap) ['/'] := by
        split_ifs with hhead
        · cases tmp with
          | nil => cases hhead
          | cons c tmp =>
              obtain rfl := Option.some.inj hhead
              rw [foldlM_segments (fun _ => rfl)]
              rfl
        · rfl
      rw [hsegs]
      generalize (if tmp.head? = some '/' then tmp.tail else tmp) = rest
      obtain ⟨hresult, hb⟩ := canonWalk_refines (le_refl rest.length) hstart
      rw [htext] at hresult
      rw [← hresult]
      cases hw : canonWalk cap rest.length rest (CanonOut.push ⟨buf, 0, []⟩ '/') with
      | mk ok o =>
          rw [hw] at hb
          cases ok with
          | false => exact ⟨rfl, hb.writes⟩
          | true =>
              refine ⟨congrArg some (CanonOut.text_finish o), fun i hi => ?_⟩
              rcases List.mem_cons.1 hi with rfl | hi
              · have hnext : o.oi < cap := hb.next
                split_ifs <;> omega
              · exact hb.writes i hi

/-! ### The reference -/

theorem canonical_canonRef (path cwd : CString) : Canonical (canonRef path cwd) :=
  ⟨_, component_resolved _, rfl⟩

theorem resolved_joinedPath (path cwd : CString) : resolved (canonJoin path cwd) = resolved (joinedPath path cwd) := by
  unfold joinedPath
  split_ifs with hhead
  · rw [canonJoin_of_abs cwd hhead]
  · obtain ⟨dir, hjoin, hdir, -⟩ := canonJoin_of_rel cwd hhead
    rw [hjoin, resolved_append, resolved_append, hdir]

/-- **The string that `canon_into` starts from** has the segments of the path that is meant. -/
theorem resolved_canonTmp {path cwd tmp : CString} (hlen : cwd.length < vfsMaxPath) (h : canonTmp path cwd = some tmp) :
    resolved tmp = resolved (joinedPath path cwd) ∧ tmp.length ≤ vfsMaxPath - 1 := by
  by_cases hfits : (canonJoin path cwd).length < vfsMaxPath
  · rw [canonTmp_eq hfits] at h
    rw [← Option.some.inj h]
    exact ⟨resolved_joinedPath path cwd, Nat.le_sub_one_of_lt hfits⟩
  rw [← resolved_joinedPath]
  by_cases hhead : path.head? = some '/'
  · obtain ⟨rest, rfl⟩ := List.head?_eq_some_iff.1 hhead
    rw [canonJoin_of_abs cwd hhead, List.length_cons] at hfits
    rw [canonTmp_absolute, if_neg (by omega)] at h
    cases h
  rw [canonTmp_relative hhead] at h
  split_ifs at h with hroom
  cases h
  refine ⟨?_, by rw [List.length_append]; exact hroom⟩
  -- no room for the slash behind the working directory, and none for a path
  have htake : cwd.take (vfsMaxPath - 1) = cwd := List.take_of_length_le (Nat.le_sub_one_of_lt hlen)
  unfold canonStart at hroom ⊢
  unfold canonJoin at hfits ⊢
  simp only [htake, if_neg hhead] at hroom hfits ⊢
  by_cases hnil : cwd = []
  · subst hnil
    rfl
  simp only [if_neg hnil] at hroom hfits ⊢
  by_cases hlast : cwd.getLast? = some '/'
  · rw [if_pos hlast, if_neg fun h => h.1 hlast]
  · rw [if_neg hlast] at hfits ⊢
    have hfull : ¬cwd.length < vfsMaxPath - 1 := by
      intro hlt
      rw [if_pos ⟨hlast, hlt⟩, List.length_append, List.length_singleton] at hroom
      rw [List.length_append, List.length_cons] at hfits
      omega
    rw [if_neg fun h => hfull h.2] at hroom ⊢
    obtain rfl : path = [] := List.length_eq_zero_iff.1 (by omega)
    rw [List.append_nil, resolved_append]
    rfl

/-- **What `canon_into` returns is the reference.** -/
theorem canonInto_eq_canonRef {path cwd l : CString} {cap : ℕ} (hcap : 1 < cap) (hlen : cwd.length < vfsMaxPath)
    (h : canonInto path cwd cap = some l) : l = canonRef path cwd := by
  obtain ⟨tmp, htmp, hl, -⟩ := canonInto_spec hcap h
  rw [hl, canonRef, ← (resolved_canonTmp hlen htmp).1]
  rfl

/-! ### Where there is room -/

theorem canonInto_of_room {path cwd tmp : CString} {cap : ℕ} (htmp : canonTmp path cwd = some tmp)
    (hroom : compBytes (components tmp) + 1 < cap) : canonInto path cwd cap = some (joinPath (resolved tmp)) := by
  obtain ⟨hrun, -⟩ := foldlM_canonSegment_eq cap (tmp.splitOn '/') [] (by simp)
    (fun s hs => slash_notMem_of_mem_splitOn hs)
    (by rw [length_dirForm]; exact (Nat.add_comm _ _).trans_lt hroom)
  rw [canonInto, htmp, Option.bind_some]
  refine (congrArg _ hrun).trans ?_
  rw [Option.map_some, stripSlash_dirForm, resolved]

/-- **A canonical path is left as it is.** -/
theorem canonInto_canonical {l : CString} (h : Canonical l) {cap : ℕ} (hlen : l.length < vfsMaxPath)
    (hroom : compBytes (components l) + 1 < cap) (cwd : CString) : canonInto l cwd cap = some l := by
  obtain ⟨comps, hcomp, rfl⟩ := h
  obtain ⟨t, ht⟩ := joinPath_eq_cons comps
  have hjoin : canonJoin (joinPath comps) cwd = joinPath comps := canonJoin_of_abs cwd (by rw [ht]; rfl)
  have htmp : canonTmp (joinPath comps) cwd = some (joinPath comps) := by
    rw [canonTmp_eq (by rwa [hjoin]), hjoin]
  have hcomps := components_joinPath hcomp
  rw [canonInto_of_room htmp hroom, resolved_eq_components (by rwa [hcomps]), hcomps]

/-- A result is no longer than the components that it is made from. -/
theorem compBytes_resolved_le (l : CString) : compBytes (resolved l) ≤ compBytes (components l) := by
  obtain ⟨-, hle⟩ := foldlM_canonSegment_eq (1 + compBytes (components l) + 1) (l.splitOn '/') [] (by simp)
    (fun s hs => slash_notMem_of_mem_splitOn hs) (Nat.lt_succ_self _)
  have hbytes : compBytes ((l.splitOn '/').filter fun c => c ≠ []) = compBytes (components l) := rfl
  rw [length_dirForm, length_dirForm, hbytes, show compBytes [] = 0 from rfl] at hle
  rw [resolved]
  omega

/-- The room that the result of `canon_into` took. -/
theorem canonInto_room {path cwd l : CString} {cap : ℕ} (hcap : 1 < cap) (h : canonInto path cwd cap = some l) :
    compBytes (components l) + 1 < cap := by
  obtain ⟨tmp, -, rfl, hcomp, hlen⟩ := canonInto_spec hcap h
  rwa [components_joinPath hcomp, ← length_dirForm]

theorem Canonical.eq_cons {l : CString} (h : Canonical l) : ∃ t, l = '/' :: t := by
  obtain ⟨comps, -, rfl⟩ := h
  exact joinPath_eq_cons comps

/-- The joined path is absolute, and no longer than the one that is meant. -/
theorem canonTmp_absolute_of_canonical {path cwd tmp : CString} (hcwd : Canonical cwd)
    (h : canonTmp path cwd = some tmp) : ∃ t, tmp = '/' :: t := by
  by_cases hhead : path.head? = some '/'
  · obtain ⟨rest, rfl⟩ := List.head?_eq_some_iff.1 hhead
    rw [canonTmp_absolute] at h
    split_ifs at h
    exact ⟨rest, (Option.some.inj h).symm⟩
  · obtain ⟨t, rfl⟩ := hcwd.eq_cons
    rw [canonTmp_relative hhead] at h
    split_ifs at h
    have hstart : ∃ t', canonStart ('/' :: t) = '/' :: t' := by
      unfold canonStart
      simp only [show vfsMaxPath - 1 = 254 + 1 from rfl, List.take_succ_cons, List.cons_ne_nil, if_false]
      split_ifs
      · exact ⟨_, rfl⟩
      · exact ⟨_, rfl⟩
    obtain ⟨t', ht'⟩ := hstart
    exact ⟨t' ++ path, by rw [← Option.some.inj h, ht', List.cons_append]⟩

theorem canonTmp_short {path cwd : CString} (h : (joinedPath path cwd).length < 254) :
    ∃ tmp, canonTmp path cwd = some tmp ∧ tmp.length < 254 := by
  have hle : (canonJoin path cwd).length ≤ (joinedPath path cwd).length := by
    unfold joinedPath
    split_ifs with hhead
    · rw [canonJoin_of_abs cwd hhead]
    · obtain ⟨dir, hjoin, -, hdir, -⟩ := canonJoin_of_rel cwd hhead
      rw [hjoin, List.length_append, List.length_append]
      omega
  have hmax : vfsMaxPath = 256 := rfl
  exact ⟨_, canonTmp_eq (by omega), by omega⟩

/-- **The law of `canon_into`.** -/
structure CanonLaw (path cwd : CString) (buf : ℕ → Char) (cap : ℕ) : Prop where
  /-- What is returned is the reference, and canonical. -/
  exact : (canonIntoBuf path cwd buf cap).1 = true →
    (canonIntoBuf path cwd buf cap).2.text = canonRef path cwd ∧ Canonical (canonRef path cwd)
  /-- It is left as it is by another call, whatever the working directory. -/
  again : (canonIntoBuf path cwd buf cap).1 = true → ∀ cwd' buf',
    (canonIntoBuf (canonIntoBuf path cwd buf cap).2.text cwd' buf' cap).1 = true ∧
      (canonIntoBuf (canonIntoBuf path cwd buf cap).2.text cwd' buf' cap).2.text =
        (canonIntoBuf path cwd buf cap).2.text
  /-- All writes are in the buffer. -/
  writes : ∀ i ∈ (canonIntoBuf path cwd buf cap).2.writes, i < cap
  /-- A path of fewer than 254 bytes is not refused. -/
  returns : vfsMaxPath ≤ cap → (joinedPath path cwd).length < 254 → (canonIntoBuf path cwd buf cap).1 = true

theorem CanonOut.result_eq_some {r : Bool × CanonOut} {l : CString} :
    CanonOut.result r = some l ↔ r.1 = true ∧ r.2.text = l := by
  unfold CanonOut.result
  split_ifs with h
  · simp [h]
  · simp [h]

/-- **`canon_into` computes the reference**, for every path and every canonical working
directory that its buffer holds. -/
theorem canonInto_law (path cwd : CString) (buf : ℕ → Char) (cap : ℕ) (hcap : 1 < cap) (hcwd : Canonical cwd)
    (hlen : cwd.length < vfsMaxPath) : CanonLaw path cwd buf cap := by
  obtain ⟨href, hwrites⟩ := canonIntoBuf_refines path cwd buf hcap
  have hsome : (canonIntoBuf path cwd buf cap).1 = true →
      canonInto path cwd cap = some (canonIntoBuf path cwd buf cap).2.text := fun h => by
    rw [← href]
    exact CanonOut.result_eq_some.2 ⟨h, rfl⟩
  refine ⟨fun h => ⟨canonInto_eq_canonRef hcap hlen (hsome h), canonical_canonRef path cwd⟩,
    fun h cwd' buf' => ?_, hwrites, fun hmax hshort => ?_⟩
  · have hroom := canonInto_room hcap (hsome h)
    have hl := canonInto_eq_canonRef hcap hlen (hsome h)
    obtain ⟨tmp, htmp, -⟩ := canonInto_spec hcap (hsome h)
    obtain ⟨t, rfl⟩ := canonTmp_absolute_of_canonical hcwd htmp
    obtain ⟨hpush, htmplen⟩ := resolved_canonTmp hlen htmp
    -- the result is no longer than the joined path
    have hshort : (canonRef path cwd).length < vfsMaxPath := by
      have hle := joinPath_length (resolved ('/' :: t))
      have hbytes := (compBytes_resolved_le ('/' :: t)).trans (components_cons t ▸ compBytes_components_le t)
      rw [length_dirForm] at hle
      rw [List.length_cons] at htmplen
      have hmax : vfsMaxPath = 256 := rfl
      rw [canonRef, ← hpush]
      omega
    rw [hl] at hroom ⊢
    have hagain := canonInto_canonical (canonical_canonRef path cwd) hshort hroom cwd'
    rw [← (canonIntoBuf_refines _ cwd' buf' hcap).1] at hagain
    exact CanonOut.result_eq_some.1 hagain
  · obtain ⟨tmp, htmp, htmplen⟩ := canonTmp_short hshort
    have hle := compBytes_components_le tmp
    have hmax' : vfsMaxPath = 256 := rfl
    have hl := canonInto_of_room htmp (show compBytes (components tmp) + 1 < cap by omega)
    rw [← href] at hl
    exact (CanonOut.result_eq_some.1 hl).1

/-- The hypotheses of `canonInto_law` are satisfiable: a path from the directory `/a/b`. -/
theorem canonInto_law_ab : CanonLaw "../c//.d/.".toList "/a/b".toList (fun _ => '?') vfsMaxPath ∧
    canonRef "../c//.d/.".toList "/a/b".toList = "/a/c/.d".toList := by
  refine ⟨canonInto_law _ _ _ _ (by decide) ⟨["a".toList, "b".toList], ?_, by decide⟩ (by decide), by decide⟩
  intro c hc
  fin_cases hc <;> exact ⟨by decide, by decide, by decide, by decide⟩

/-! ### The root in front -/

/-- A root without the slash at its end, and nothing for `"/"`. -/
def bareRoot (root : CString) : CString :=
  if root = [] ∨ root = ['/'] then [] else if root.getLast? = some '/' then root.dropLast else root

/-- The path that a process means: its root, and the canonical path under it. -/
def fullPath (p : ProcPath) (path : CString) : CString := bareRoot p.root ++ canonRef path (orSlash p.cwd)

/-- **`process_resolve_path` returns the path that is meant, or `-1`.** -/
structure ResolvesExactly (p : ProcPath) (path : CString) (cap : ℕ) : Prop where
  exact : ∀ out, processResolvePath p path cap = some out → out = fullPath p path
  refuses : cap - 1 < (fullPath p path).length → processResolvePath p path cap = none

/-- What is copied behind the root. -/
theorem processResolvePath_fits {p : ProcPath} {path loc : CString} {cap : ℕ}
    (h : canonInto path (orSlash p.cwd) vfsMaxPath = some loc) (hloc : loc ≠ [])
    (hfits : (bareRoot p.root ++ loc).length ≤ cap - 1) :
    processResolvePath p path cap = some (bareRoot p.root ++ loc) := by
  have hpos := List.length_pos_iff.2 hloc
  rw [List.length_append] at hfits
  rw [processResolvePath, h, Option.map_some]
  unfold bareRoot orSlash at *
  by_cases hnil : p.root = []
  · rw [if_pos hnil, if_pos rfl, if_pos (Or.inl hnil), List.nil_append, List.take_of_length_le (by omega)]
  rw [if_neg hnil]
  by_cases hslash : p.root = ['/']
  · rw [if_pos hslash, if_pos (Or.inr hslash), List.nil_append, List.take_of_length_le (by omega)]
  have hroot : ¬(p.root = [] ∨ p.root = ['/']) := by simp [hnil, hslash]
  rw [if_neg hslash]
  rw [if_neg hroot] at hfits ⊢
  -- the root with its slash is no longer than the root and the path behind it
  have htake : p.root.take (cap - 1) = p.root := by
    refine List.take_of_length_le ?_
    split_ifs at hfits
    · rw [List.length_dropLast] at hfits
      omega
    · omega
  simp only [htake]
  rw [List.take_of_length_le (by omega)]

/-- **Where the whole path fits, and only there**, `process_resolve_path` reports success with
it: for every root, working directory and path that `canon_into` takes, and every capacity. -/
theorem resolvesExactly_iff (p : ProcPath) (path : CString) (cap : ℕ) (hcwd : p.cwd.length < vfsMaxPath) :
    ResolvesExactly p path cap ↔
      canonInto path (orSlash p.cwd) vfsMaxPath = none ∨ (fullPath p path).length ≤ cap - 1 := by
  have hcwd' : (orSlash p.cwd).length < vfsMaxPath := by
    unfold orSlash
    split_ifs
    · decide
    · exact hcwd
  cases hc : canonInto path (orSlash p.cwd) vfsMaxPath with
  | none =>
      have hnone : processResolvePath p path cap = none := by rw [processResolvePath, hc]; rfl
      exact ⟨fun _ => Or.inl rfl, fun _ => ⟨fun out h => (by rw [hnone] at h; cases h), fun _ => hnone⟩⟩
  | some loc =>
      have hloc := canonInto_eq_canonRef (by decide) hcwd' hc
      have hne : loc ≠ [] := by
        obtain ⟨t, ht⟩ := (hloc ▸ canonical_canonRef path (orSlash p.cwd) : Canonical loc).eq_cons
        simp [ht]
      constructor
      · intro h
        right
        by_contra hlong
        have := h.refuses (not_le.1 hlong)
        rw [processResolvePath, hc] at this
        cases this
      · rintro (h | hfits)
        · cases h
        · have hout := processResolvePath_fits hc hne (by rw [hloc]; exact hfits)
          rw [hloc] at hout
          exact ⟨fun out h => Option.some.inj (h.symm.trans hout), fun hlong => absurd hfits (not_le.2 hlong)⟩

/-- The hypothesis of `resolvesExactly_iff` is satisfiable: a path under the root `/jail`. -/
theorem resolvesExactly_iff_jail :
    ResolvesExactly ⟨"/jail".toList, "/home".toList⟩ "../../a".toList vfsMaxPath :=
  (resolvesExactly_iff ⟨"/jail".toList, "/home".toList⟩ "../../a".toList vfsMaxPath (by decide)).2
    (Or.inr (by decide +kernel))

/-- **Success with another path.**  The root of a process has 252 bytes.  `bcd` resolves to the
path of `bc` in the root: what opens, creates or unlinks the one acts on the other. -/
theorem resolve_cuts_off : ∃ st, pathSystem.Reaches st ∧ ∃ p ∈ st,
    processResolvePath p "bcd".toList vfsMaxPath = some (p.root ++ "/bc".toList) ∧
      processResolvePath p "bc".toList vfsMaxPath = some (p.root ++ "/bc".toList) ∧
      ¬ResolvesExactly p "bcd".toList vfsMaxPath := by
  have hrun : (System.exec pathStep [⟨['/'], ['/']⟩]
      [.chroot 0 (joinPath [longName, longName, longName, longName]) (findsDir deepTree)]).any (fun st => decide (∃ p ∈ st,
        processResolvePath p "bcd".toList vfsMaxPath = some (p.root ++ "/bc".toList) ∧
        processResolvePath p "bc".toList vfsMaxPath = some (p.root ++ "/bc".toList) ∧
        vfsMaxPath - 1 < (fullPath p "bcd".toList).length)) = true := by decide +kernel
  obtain ⟨st, hexec, htest⟩ := (Option.any_eq_true _ _).1 hrun
  obtain ⟨p, hp, hbcd, hbc, hlong⟩ := of_decide_eq_true htest
  refine ⟨st, System.ofFun_reaches (.init rfl) hexec, p, hp, hbcd, hbc, fun h => ?_⟩
  rw [h.refuses hlong] at hbcd
  cases hbcd

end LighthOS
