/-
# Streams over system calls that may fail

`fflush`, `fread`, `fwrite` and the other functions of `user/libc/stdio.c` on a `FILE`, with its
flags, its buffer and the indices `bufpos` and `buflen`, for any results of the system calls.
`size_t` is an unsigned and `ssize_t` a signed integer of 32 bits.  A call may not return (a
read of the console that finds nothing is repeated), so the loops take a number of rounds and
give the state after that many.

`bufpos` counts the bytes to write or is the next byte to read.  `fread` takes a stream over
from writing after a flush whose result it ignores; where that flush succeeds, the indices stay
valid and every access to the buffer is inside it (`stdio_indices_valid`).
-/

import LighthOS.User.Stdio

namespace LighthOS

/-! ### The functions -/

/-- The results of the system calls, by the number of the call, before they are cut to what was
asked for, and the bytes that a read delivers. -/
structure Sys where
  ret : ℕ → ℤ
  data : ℕ → ℕ → Char

/-- A `FILE`.  `calls` is the number of system calls so far, `sent` are the bytes that were passed
to `sys_write`, and `touched` are the parts of the buffer that were read or written: first index
and length. -/
structure FILE where
  fd : ℕ
  bufmode : BufMode
  bufsize : ℕ
  buf : ℕ → Char
  bufpos : ℕ
  buflen : ℕ
  writing : Bool
  reading : Bool
  eof : Bool
  err : Bool
  ungot : Bool
  ungotCh : Char
  calls : ℕ
  sent : CString
  touched : List (ℕ × ℕ)

namespace FILE

/-- `n` bytes of the buffer from `o` on. -/
def bytes (f : FILE) (o n : ℕ) : CString := (List.range n).map fun i => f.buf (o + i)

/-- An access to `n` bytes of the buffer from `o` on. -/
def touch (f : FILE) (o n : ℕ) : FILE := { f with touched := (o, n) :: f.touched }

/-- `memcpy(f->buf + f->bufpos, s, n)` and `f->bufpos += n`. -/
def store (f : FILE) (s : CString) : FILE :=
  { f.touch f.bufpos s.length with
    buf := fun i => if f.bufpos ≤ i then (s[i - f.bufpos]?).getD (f.buf i) else f.buf i,
    bufpos := (f.bufpos + s.length) % 2 ^ 32 }

/-- `f->buflen - f->bufpos`, the bytes that were read and not yet handed out. -/
def bufavail (f : FILE) : ℕ := (f.buflen + 2 ^ 32 - f.bufpos) % 2 ^ 32

/-- `f->bufsize - f->bufpos`, the bytes that still fit. -/
def room (f : FILE) : ℕ := (f.bufsize + 2 ^ 32 - f.bufpos) % 2 ^ 32

/-- The index of the last newline below `n`. -/
def lastNewline (buf : ℕ → Char) : ℕ → Option ℕ
  | 0 => none
  | n + 1 => if buf n = '\n' then some n else lastNewline buf n

section Calls

variable (sys : Sys)

/-- `sys_write`: its result as a `ssize_t`. -/
def sysWrite (f : FILE) (s : CString) : ℤ × FILE :=
  (i32 (min (sys.ret f.calls) s.length), { f with calls := f.calls + 1, sent := f.sent ++ s })

/-- The result of a `sys_read` of `n` bytes, as a `ssize_t`. -/
def readResult (f : FILE) (n : ℕ) : ℤ := i32 (min (sys.ret f.calls) n)

/-- `sys_read(f->fd, f->buf, f->bufsize)`. -/
def fill (f : FILE) : FILE :=
  { f.touch 0 f.bufsize with
    buf := fun i => if i < (min (sys.ret f.calls) f.bufsize).toNat then sys.data f.calls i else f.buf i,
    calls := f.calls + 1 }

/-- The first `take` of `n` bytes that were read are copied. -/
def handOut (f : FILE) (n take : ℕ) : FILE := { f.touch 0 take with bufpos := take, buflen := n }

/-- `sys_write(f->fd, f->buf, n)`. -/
def writeBuf (f : FILE) (n : ℕ) : ℤ × FILE := (f.touch 0 n).sysWrite sys (f.bytes 0 n)

/-- `fflush`. -/
def fflush (f : FILE) : ℤ × FILE :=
  if f.writing ∧ 0 < f.bufpos then
    let (n, g) := f.writeBuf sys f.bufpos
    if n < 0 ∨ n ≠ f.bufpos then (-1, { g with err := true }) else (0, { g with bufpos := 0, writing := false })
  else (0, { f with writing := false })

/-- The first part of `fread`: the flags. -/
def startReading (f : FILE) : FILE := { (if f.writing then (f.fflush sys).2 else f) with reading := true }

/-- The character that was put back. -/
def drainUngot (f : FILE) : CString × FILE :=
  if f.ungot then ([f.ungotCh], { f with ungot := false }) else ([], f)

/-- The bytes in the buffer. -/
def drain (total : ℕ) (out : CString) (f : FILE) : CString × FILE :=
  if 0 < f.bufavail ∧ out.length < total then
    let n := min (total - out.length) f.bufavail
    (out ++ f.bytes f.bufpos n, { f.touch f.bufpos n with bufpos := (f.bufpos + n) % 2 ^ 32 })
  else (out, f)

/-- The loop of `fread`, for a number of rounds. -/
def freadLoop (total : ℕ) : ℕ → CString → FILE → CString × FILE
  | 0, out, f => (out, f)
  | fuel + 1, out, f =>
      if total ≤ out.length then (out, f)
      else
        let remaining := total - out.length
        if f.bufmode = .none ∨ f.bufsize ≤ remaining then
          let n := f.readResult sys remaining
          let g := { f with calls := f.calls + 1 }
          if n < 0 then (out, { g with err := true })
          else if n = 0 then if f.fd = 0 then freadLoop total fuel out g else (out, { g with eof := true })
          else freadLoop total fuel (out ++ (List.range n.toNat).map (sys.data f.calls)) g
        else
          let n := f.readResult sys f.bufsize
          let g := f.fill sys
          if n < 0 then (out, { g with err := true })
          else if n = 0 then if f.fd = 0 then freadLoop total fuel out g else (out, { g with eof := true })
          else
            let take := min remaining n.toNat
            freadLoop total fuel (out ++ g.bytes 0 take) (g.handOut n.toNat take)

/-- The body of `fread`, for `total` bytes. -/
def freadBytes (fuel total : ℕ) (f : FILE) : CString × FILE :=
  let ungot := (f.startReading sys).drainUngot
  let drained := drain total ungot.1 ungot.2
  freadLoop sys total fuel drained.1 drained.2

/-- `fread`: what it returns, what it stores to `dst`, and the stream. -/
def fread (fuel size nmemb : ℕ) (f : FILE) : ℕ × CString × FILE :=
  if size = 0 ∨ nmemb = 0 then (0, [], f)
  else
    let (out, f) := f.freadBytes sys fuel (size * nmemb % 2 ^ 32)
    (out.length / size, out, f)

/-- The buffer up to index `i` is written, and the rest moves to its start. -/
def flushUpTo (f : FILE) (i : ℕ) : FILE :=
  { (f.writeBuf sys (i + 1)).2.touch 0 f.bufpos with
    buf := fun j => if j < f.bufpos - (i + 1) then f.buf (i + 1 + j) else f.buf j, bufpos := f.bufpos - (i + 1) }

/-- The part of `fwrite` that writes up to the last newline; its index is an `int`. -/
def flushLines (f : FILE) : FILE :=
  if 2 ^ 31 ≤ f.bufpos then f
  else
    match lastNewline f.buf f.bufpos with
    | none => f
    | some i => f.flushUpTo sys i

/-- A flush inside `fwrite`, after which the stream is written to again. -/
def flushOn (f : FILE) : ℤ × FILE :=
  let (r, g) := f.fflush sys
  if r ≠ 0 then (r, g) else (r, { g with writing := true })

/-- A round of the loop of `fwrite` that stores to the buffer. -/
def put (s : CString) (f : FILE) : ℤ × FILE :=
  let g := f.store s
  if g.bufmode = .line then (0, g.flushLines sys)
  else if g.bufpos = g.bufsize then g.flushOn sys
  else (0, g)

/-- The loop of `fwrite`, for a number of rounds: what is left of `src`, and the stream. -/
def fwriteLoop : ℕ → CString → FILE → CString × FILE
  | 0, src, f => (src, f)
  | fuel + 1, src, f =>
      if src = [] then ([], f)
      else if f.bufmode = .none then
        let (n, g) := f.sysWrite sys src
        if n < 0 then (src, { g with err := true }) else fwriteLoop fuel (src.drop n.toNat) g
      else if f.room = 0 then
        let (r, g) := f.flushOn sys
        if r ≠ 0 then (src, g) else fwriteLoop fuel src g
      else
        let take := min src.length f.room
        let (r, g) := f.put sys (src.take take)
        if r ≠ 0 then (src.drop take, g) else fwriteLoop fuel (src.drop take) g

/-- The first part of `fwrite`: the flags. -/
def startWriting (f : FILE) : FILE :=
  { (if f.reading then { f with bufpos := 0, buflen := 0, reading := false } else f) with writing := true }

/-- `fwrite`: what it returns, and the stream. -/
def fwrite (fuel : ℕ) (src : ℕ → Char) (size nmemb : ℕ) (f : FILE) : ℕ × FILE :=
  if size = 0 ∨ nmemb = 0 then (0, f)
  else
    let total := size * nmemb % 2 ^ 32
    let (rest, f) := fwriteLoop sys fuel ((List.range total).map src) f.startWriting
    ((total - rest.length) / size, f)

/-- `fclose`: what it returns, and the stream at the end. -/
def fclose (f : FILE) : ℤ × FILE := ((if (f.fflush sys).1 ≠ 0 then -1 else 0), (f.fflush sys).2)

/-- `fgetc`: the character, or nothing for `EOF`. -/
def fgetc (fuel : ℕ) (f : FILE) : Option Char × FILE :=
  let (n, out, f) := f.fread sys fuel 1 1
  (if n = 1 then out.head? else none, f)

/-- `fputc`: whether it succeeded, and the stream. -/
def fputc (fuel : ℕ) (c : Char) (f : FILE) : Bool × FILE :=
  let (n, f) := f.fwrite sys fuel (fun _ => c) 1 1
  (n == 1, f)

/-- `fputs`: whether it succeeded, and the stream. -/
def fputs (fuel : ℕ) (s : CString) (f : FILE) : Bool × FILE :=
  let (n, f) := f.fwrite sys fuel (fun i => s.getD i '\x00') 1 (s.length % 2 ^ 32)
  (n == s.length % 2 ^ 32, f)

/-- `ungetc`, of a character that is not `EOF`: whether it succeeded, and the stream. -/
def ungetc (c : Char) (f : FILE) : Bool × FILE :=
  if f.ungot then (false, f) else (true, { f with ungotCh := c, ungot := true, eof := false })

/-- `fseek`: what it returns, and the stream. -/
def fseek (f : FILE) : ℤ × FILE :=
  let g := if f.writing then (f.fflush sys).2 else f
  (if i32 (sys.ret g.calls) < 0 then -1 else 0,
    { g with bufpos := 0, buflen := 0, reading := false, eof := false, ungot := false, calls := g.calls + 1 })

/-- `ftell`: what it returns, and the stream. -/
def ftell (f : FILE) : ℤ × FILE :=
  let g := if f.writing then (f.fflush sys).2 else f
  let r := i32 (sys.ret g.calls)
  (if r < 0 then -1 else r - g.bufavail, { g with calls := g.calls + 1 })

/-- `setvbuf` with a buffer of the caller, or with one of `malloc`, which may fail.  The bytes of a
new buffer are `fresh`. -/
def setvbuf (own : Bool) (fresh : ℕ → Char) (mallocOk : Bool) (mode : BufMode) (size : ℕ) (f : FILE) : ℤ × FILE :=
  let g := (f.fflush sys).2
  let h := { g with bufmode := mode, bufpos := 0, buflen := 0 }
  if own then (0, { h with buf := fresh, bufsize := size })
  else if size ≠ g.bufsize ∧ 0 < size then
    if mallocOk then (0, { h with buf := fresh, bufsize := size }) else (-1, g)
  else (0, h)

end Calls

/-- A stream that `fopen` gives. -/
def fopen (fd : ℕ) (buf : ℕ → Char) : FILE :=
  ⟨fd, .full, 1024, buf, 0, 0, false, false, false, false, false, '\x00', 0, [], []⟩

/-! ### The indices -/

variable {sys : Sys} {f : FILE}

/-- The indices are valid, and so were all accesses to the buffer. -/
structure ValidIndices (f : FILE) : Prop where
  bufpos_le : f.bufpos ≤ f.bufsize
  reading_le : f.reading = true → f.bufpos ≤ f.buflen ∧ f.buflen ≤ f.bufsize
  touched_le : ∀ r ∈ f.touched, r.1 + r.2 ≤ f.bufsize

/-- The state between two calls: a stream that is not written to has `bufpos` within what was
read, and a stream is not read and written at once. -/
structure Sound (f : FILE) : Prop where
  size_lt : f.bufsize < 2 ^ 32
  bufpos_le : f.bufpos ≤ f.bufsize
  buflen_le : f.buflen ≤ f.bufsize
  read_le : f.writing = false → f.bufpos ≤ f.buflen
  not_both : f.reading = true → f.writing = false
  touched_le : ∀ r ∈ f.touched, r.1 + r.2 ≤ f.bufsize

theorem Sound.validIndices (h : f.Sound) : f.ValidIndices :=
  ⟨h.bufpos_le, fun hr => ⟨h.read_le (h.not_both hr), h.buflen_le⟩, h.touched_le⟩

theorem Sound.touch (h : f.Sound) {o n : ℕ} (hn : o + n ≤ f.bufsize) : (f.touch o n).Sound := by
  refine ⟨h.size_lt, h.bufpos_le, h.buflen_le, h.read_le, h.not_both, fun r hr => ?_⟩
  rcases List.mem_cons.1 hr with rfl | hr
  · exact hn
  · exact h.touched_le r hr

/-- What a flush does. -/
inductive FlushWay (sys : Sys) (f : FILE) : ℤ × FILE → Prop
  | failed (hn : (f.writeBuf sys f.bufpos).1 ≠ f.bufpos) :
      FlushWay sys f (-1, { (f.writeBuf sys f.bufpos).2 with err := true })
  | done (hn : (f.writeBuf sys f.bufpos).1 = f.bufpos) :
      FlushWay sys f (0, { (f.writeBuf sys f.bufpos).2 with bufpos := 0, writing := false })
  | idle (h : f.writing = true → f.bufpos = 0) : FlushWay sys f (0, { f with writing := false })

theorem fflush_way (sys : Sys) (f : FILE) : FlushWay sys f (f.fflush sys) := by
  unfold FILE.fflush
  by_cases hflush : f.writing = true ∧ 0 < f.bufpos
  · rw [if_pos hflush]
    dsimp only
    by_cases hn : (f.writeBuf sys f.bufpos).1 < 0 ∨ (f.writeBuf sys f.bufpos).1 ≠ f.bufpos
    · rw [if_pos hn]
      exact .failed (by omega)
    · rw [if_neg hn]
      exact .done (by omega)
  · rw [if_neg hflush]
    exact .idle fun hw => by simpa [hw] using hflush

theorem Sound.writeBuf (h : f.Sound) (sys : Sys) {n : ℕ} (hn : n ≤ f.bufsize) : (f.writeBuf sys n).2.Sound := by
  have ht := h.touch (o := 0) (n := n) (by omega)
  exact ⟨h.size_lt, h.bufpos_le, h.buflen_le, h.read_le, h.not_both, ht.touched_le⟩

/-- A flush keeps the state in order, and one that succeeds ends the writing. -/
theorem Sound.fflush (h : f.Sound) (sys : Sys) : (f.fflush sys).2.Sound ∧ (f.fflush sys).2.reading = f.reading ∧
    ((f.fflush sys).1 = 0 → (f.fflush sys).2.writing = false) := by
  have hw := h.writeBuf sys h.bufpos_le
  have hway := fflush_way sys f
  generalize f.fflush sys = r at hway
  cases hway with
  | failed =>
      exact ⟨⟨hw.size_lt, hw.bufpos_le, hw.buflen_le, hw.read_le, hw.not_both, hw.touched_le⟩, rfl,
        fun h => absurd h (by decide : (-1 : ℤ) ≠ 0)⟩
  | done =>
      exact ⟨⟨hw.size_lt, Nat.zero_le _, hw.buflen_le, fun _ => Nat.zero_le _, fun _ => rfl, hw.touched_le⟩, rfl,
        fun _ => rfl⟩
  | idle hidle =>
      refine ⟨⟨h.size_lt, h.bufpos_le, h.buflen_le, fun _ => ?_, fun _ => rfl, h.touched_le⟩, rfl, fun _ => rfl⟩
      by_cases hwr : f.writing = true
      · simp [hidle hwr]
      · exact h.read_le (by simpa using hwr)

/-- The flush before a read succeeds. -/
def FlushSucceeds (sys : Sys) (f : FILE) : Prop := f.writing = true → (f.fflush sys).1 = 0

/-- A stream that is read: not written to, with its flag set. -/
theorem Sound.startReading (h : f.Sound) (hflush : FlushSucceeds sys f) :
    (f.startReading sys).Sound ∧ (f.startReading sys).writing = false := by
  have key : ∀ {g : FILE}, g.Sound → g.writing = false → Sound { g with reading := true } ∧ g.writing = false :=
    fun hg hw => ⟨⟨hg.size_lt, hg.bufpos_le, hg.buflen_le, hg.read_le, fun _ => hw, hg.touched_le⟩, hw⟩
  unfold FILE.startReading
  split_ifs with hw
  · exact key (h.fflush sys).1 ((h.fflush sys).2.2 (hflush hw))
  · exact key h (by simpa using hw)

theorem Sound.drainUngot (h : f.Sound) : f.drainUngot.2.Sound ∧ f.drainUngot.2.writing = f.writing := by
  unfold FILE.drainUngot
  split_ifs
  · exact ⟨⟨h.size_lt, h.bufpos_le, h.buflen_le, h.read_le, h.not_both, h.touched_le⟩, rfl⟩
  · exact ⟨h, rfl⟩

/-- What was read and not yet handed out. -/
theorem Sound.bufavail_eq (h : f.Sound) (hw : f.writing = false) : f.bufavail = f.buflen - f.bufpos := by
  have hread := h.read_le hw
  have hlen := h.buflen_le
  have hlt := h.size_lt
  unfold FILE.bufavail
  omega

theorem Sound.room_eq (h : f.Sound) : f.room = f.bufsize - f.bufpos := by
  have hpos := h.bufpos_le
  have hlt := h.size_lt
  unfold FILE.room
  omega

theorem Sound.drain (h : f.Sound) (hw : f.writing = false) (total : ℕ) (out : CString) :
    (FILE.drain total out f).2.Sound ∧ (FILE.drain total out f).2.writing = false := by
  have hread := h.read_le hw
  have hlen := h.buflen_le
  have hlt := h.size_lt
  unfold FILE.drain
  dsimp only
  split_ifs with hcond
  · have havail := h.bufavail_eq hw
    generalize hn : min (total - out.length) f.bufavail = n
    have ht := h.touch (o := f.bufpos) (n := n) (by omega)
    refine ⟨⟨hlt, ?_, hlen, fun _ => ?_, h.not_both, ht.touched_le⟩, hw⟩
    · change (f.bufpos + n) % 2 ^ 32 ≤ f.bufsize
      omega
    · change (f.bufpos + n) % 2 ^ 32 ≤ f.buflen
      omega
  · exact ⟨h, hw⟩

theorem Sound.handOut (h : f.Sound) (hw : f.writing = false) {n take : ℕ} (htake : take ≤ n) (hn : n ≤ f.bufsize) :
    (f.handOut n take).Sound := by
  have ht := h.touch (o := 0) (n := take) (by omega)
  exact ⟨h.size_lt, htake.trans hn, hn, fun _ => htake, fun _ => hw, ht.touched_le⟩

/-- Results that an `int` can hold, where they are negative. -/
def IntResults (sys : Sys) : Prop := ∀ i, -2 ^ 31 ≤ sys.ret i

theorem readResult_le (hret : IntResults sys) (f : FILE) {n : ℕ} (hn : n < 2 ^ 32) : f.readResult sys n ≤ n := by
  have hlo := hret f.calls
  unfold readResult
  rcases lt_or_ge (min (sys.ret f.calls) n) (2 ^ 31) with hlt | hge
  · rw [i32_eq_self (by omega) hlt]
    omega
  · rw [i32_of_overflow hge (by omega)]
    omega

/-- **The loop of `fread`** keeps the indices valid. -/
theorem Sound.freadLoop (h : f.Sound) (hret : IntResults sys) (hw : f.writing = false) (total fuel : ℕ)
    (out : CString) : (FILE.freadLoop sys total fuel out f).2.Sound := by
  induction fuel generalizing f out with
  | zero => exact h
  | succ fuel ih =>
      have hcall : Sound { f with calls := f.calls + 1 } :=
        ⟨h.size_lt, h.bufpos_le, h.buflen_le, h.read_le, h.not_both, h.touched_le⟩
      have ht := h.touch (o := 0) (n := f.bufsize) (by omega)
      have hfill : (f.fill sys).Sound := ⟨h.size_lt, h.bufpos_le, h.buflen_le, h.read_le, h.not_both, ht.touched_le⟩
      have hle := readResult_le hret f h.size_lt
      have hflag : ∀ {g : FILE}, g.Sound → ∀ e r : Bool, Sound { g with eof := e, err := r } := fun hg _ _ =>
        ⟨hg.size_lt, hg.bufpos_le, hg.buflen_le, hg.read_le, hg.not_both, hg.touched_le⟩
      unfold FILE.freadLoop
      dsimp only
      split_ifs with hdone hdirect herr hzero hstdin herr hzero hstdin
      · exact h
      · exact hflag hcall _ _
      · exact ih hcall hw out
      · exact hflag hcall _ _
      · exact ih hcall hw _
      · exact hflag hfill _ _
      · exact ih hfill hw out
      · exact hflag hfill _ _
      · -- the buffer was filled anew
        have hn : (f.readResult sys f.bufsize).toNat ≤ (f.fill sys).bufsize := Int.toNat_le.2 hle
        exact ih (hfill.handOut hw (min_le_right _ _) hn) hw _

theorem Sound.freadBytes (h : f.Sound) (hret : IntResults sys) (fuel total : ℕ) (hflush : FlushSucceeds sys f) :
    (f.freadBytes sys fuel total).2.Sound := by
  obtain ⟨h₁, hw₁⟩ := h.startReading hflush
  obtain ⟨h₂, hw₂⟩ := h₁.drainUngot
  obtain ⟨h₃, hw₃⟩ := h₂.drain (hw₂.trans hw₁) total (f.startReading sys).drainUngot.1
  exact h₃.freadLoop hret hw₃ total fuel _

/-- **`fread`** keeps the indices valid where the flush before it succeeds. -/
theorem Sound.fread (h : f.Sound) (hret : IntResults sys) (fuel size nmemb : ℕ)
    (hflush : size ≠ 0 → nmemb ≠ 0 → FlushSucceeds sys f) : (f.fread sys fuel size nmemb).2.2.Sound := by
  unfold FILE.fread
  split_ifs with hzero
  · exact h
  · exact h.freadBytes hret fuel _ (hflush (fun h => hzero (.inl h)) fun h => hzero (.inr h))

theorem lastNewline_lt {buf : ℕ → Char} {n i : ℕ} (h : lastNewline buf n = some i) : i < n ∧ buf i = '\n' := by
  induction n with
  | zero => cases h
  | succ n ih =>
      unfold lastNewline at h
      split_ifs at h with hn
      · obtain rfl := Option.some.inj h
        exact ⟨Nat.lt_succ_self _, hn⟩
      · exact ⟨(ih h).1.trans (Nat.lt_succ_self _), (ih h).2⟩

/-- A stream that is written to. -/
structure Writable (f : FILE) : Prop extends f.Sound where
  isWriting : f.writing = true

section

variable (h : f.Writable)
include h

theorem Writable.not_reading : f.reading = false := by
  by_contra hr
  have := h.not_both (by simpa using hr)
  rw [h.isWriting] at this
  cases this

/-- Indices of a stream that is written to. -/
theorem Writable.mk_bufpos {g : FILE} (hsize : g.bufsize = f.bufsize) (hpos : g.bufpos ≤ f.bufsize)
    (hlen : g.buflen = f.buflen) (hw : g.writing = true) (hr : g.reading = f.reading)
    (ht : ∀ r ∈ g.touched, r.1 + r.2 ≤ f.bufsize) : g.Writable := by
  refine ⟨⟨hsize ▸ h.size_lt, hsize ▸ hpos, hsize ▸ hlen ▸ h.buflen_le, fun h' => ?_, fun h' => ?_, hsize ▸ ht⟩, hw⟩
  · rw [hw] at h'
    cases h'
  · rw [hr, h.not_reading] at h'
    cases h'

theorem Writable.store {s : CString} (hs : f.bufpos + s.length ≤ f.bufsize) : (f.store s).Writable := by
  have hlt := h.size_lt
  refine h.mk_bufpos rfl ?_ rfl h.isWriting rfl (h.touch hs).touched_le
  change (f.bufpos + s.length) % 2 ^ 32 ≤ f.bufsize
  omega

theorem Writable.flushUpTo {i : ℕ} (hi : i < f.bufpos) : (f.flushUpTo sys i).Writable := by
  have hpos := h.bufpos_le
  have hw := h.writeBuf sys (hi.trans_le hpos)
  refine h.mk_bufpos rfl ((Nat.sub_le _ _).trans hpos) rfl h.isWriting rfl
    (hw.touch (o := 0) (n := f.bufpos) ?_).touched_le
  rw [Nat.zero_add]
  exact hpos

theorem Writable.flushLines : (f.flushLines sys).Writable := by
  unfold FILE.flushLines
  split_ifs
  · exact h
  · cases hi : lastNewline f.buf f.bufpos with
    | none => exact h
    | some i => exact h.flushUpTo (lastNewline_lt hi).1

theorem Writable.flushOn : (f.flushOn sys).2.Sound ∧ ((f.flushOn sys).1 = 0 → (f.flushOn sys).2.Writable) := by
  obtain ⟨hs, hr, -⟩ := h.toSound.fflush sys
  unfold FILE.flushOn
  dsimp only
  split_ifs with hfail
  · exact ⟨hs, fun h' => absurd h' hfail⟩
  · have hw : Writable { (f.fflush sys).2 with writing := true } := by
      refine ⟨⟨hs.size_lt, hs.bufpos_le, hs.buflen_le, fun h' => ?_, fun h' => ?_, hs.touched_le⟩, rfl⟩
      · cases h'
      · rw [hr, h.not_reading] at h'
        cases h'
    exact ⟨hw.toSound, fun _ => hw⟩

theorem Writable.put (sys : Sys) {s : CString} (hs : f.bufpos + s.length ≤ f.bufsize) :
    (f.put sys s).2.Sound ∧ ((f.put sys s).1 = 0 → (f.put sys s).2.Writable) := by
  have hstore := h.store hs
  unfold FILE.put
  dsimp only
  split_ifs
  · exact ⟨hstore.flushLines.toSound, fun _ => hstore.flushLines⟩
  · exact hstore.flushOn
  · exact ⟨hstore.toSound, fun _ => hstore⟩

/-- **The loop of `fwrite`** keeps the indices valid, whatever the writes return. -/
theorem Writable.fwriteLoop (fuel : ℕ) (src : CString) : (FILE.fwriteLoop sys fuel src f).2.Sound := by
  induction fuel generalizing f src with
  | zero => exact h.toSound
  | succ fuel ih =>
      have hpos := h.bufpos_le
      have hcall : ∀ e : Bool, Writable { (f.sysWrite sys src).2 with err := e } := fun _ =>
        h.mk_bufpos rfl hpos rfl h.isWriting rfl h.touched_le
      have hput := h.put sys (s := src.take (min src.length f.room))
        (by rw [List.length_take, h.room_eq]; omega)
      unfold FILE.fwriteLoop
      dsimp only
      split_ifs with hnil hmode herr hroom hflush hflush
      · exact h.toSound
      · exact (hcall _).toSound
      · exact ih (hcall _) _
      · exact h.flushOn.1
      · exact ih (h.flushOn.2 (not_not.1 hflush)) src
      · exact hput.1
      · exact ih (hput.2 (not_not.1 hflush)) _

end

theorem Sound.startWriting (h : f.Sound) : f.startWriting.Writable := by
  unfold FILE.startWriting
  cases hr : f.reading with
  | true =>
      refine ⟨⟨h.size_lt, Nat.zero_le _, Nat.zero_le _, fun _ => Nat.le_refl _, fun h' => ?_, h.touched_le⟩, rfl⟩
      cases h'
  | false =>
      refine ⟨⟨h.size_lt, h.bufpos_le, h.buflen_le, fun h' => ?_, fun h' => ?_, h.touched_le⟩, rfl⟩
      · cases h'
      · rw [← hr, ← h']
        rfl

theorem Sound.fwrite (h : f.Sound) (fuel : ℕ) (src : ℕ → Char) (size nmemb : ℕ) :
    (f.fwrite sys fuel src size nmemb).2.Sound := by
  unfold FILE.fwrite
  split_ifs
  · exact h
  · exact h.startWriting.fwriteLoop fuel _

/-- The flush that `fseek` and `ftell` do first. -/
theorem Sound.settled (h : f.Sound) (sys : Sys) : Sound (if f.writing then (f.fflush sys).2 else f) := by
  split_ifs
  · exact (h.fflush sys).1
  · exact h

end FILE

/-! ### Sequences of calls -/

/-- The calls on a stream. -/
inductive StdioOp
  | fread (size nmemb : ℕ)
  | fwrite (src : ℕ → Char) (size nmemb : ℕ)
  | fputc (c : Char)
  | fgetc
  | ungetc (c : Char)
  | fflush
  | fseek
  | ftell

namespace StdioOp

/-- One call; its loop may make `fuel` rounds. -/
def step (sys : Sys) (fuel : ℕ) (f : FILE) : StdioOp → FILE
  | fread size nmemb => (f.fread sys fuel size nmemb).2.2
  | fwrite src size nmemb => (f.fwrite sys fuel src size nmemb).2
  | fputc c => (f.fputc sys fuel c).2
  | fgetc => (f.fgetc sys fuel).2
  | ungetc c => (f.ungetc c).2
  | fflush => (f.fflush sys).2
  | fseek => (f.fseek sys).2
  | ftell => (f.ftell sys).2

/-- A call that reads finds nothing to write, or writes it. -/
def FlushesFirst (sys : Sys) (f : FILE) : StdioOp → Prop
  | fread size nmemb => size ≠ 0 → nmemb ≠ 0 → f.FlushSucceeds sys
  | fgetc => f.FlushSucceeds sys
  | _ => True

end StdioOp

/-- The calls on a new stream of any mode and buffer size. -/
def stdioSystem (sys : Sys) (fuel : ℕ) : System FILE StdioOp :=
  .ofFun (fun f => f.bufsize < 2 ^ 32 ∧ f.bufpos = 0 ∧ f.buflen = 0 ∧ f.writing = false ∧ f.reading = false ∧
    f.touched = []) fun f op => some (op.step sys fuel f)

theorem stdioSystem_step {sys : Sys} {fuel : ℕ} {f : FILE} (h : (stdioSystem sys fuel).Reaches f) (op : StdioOp) :
    (stdioSystem sys fuel).Reaches (op.step sys fuel f) := .step h (a := op) rfl

/-- The calls of which each that reads finds nothing to write, or writes it. -/
def flushingSystem (sys : Sys) (fuel : ℕ) : System FILE StdioOp :=
  (stdioSystem sys fuel).restrict fun f op => op.FlushesFirst sys f

theorem flushingSystem_step {sys : Sys} {fuel : ℕ} {f : FILE} (h : (flushingSystem sys fuel).Reaches f) (op : StdioOp)
    (hop : op.FlushesFirst sys f) : (flushingSystem sys fuel).Reaches (op.step sys fuel f) :=
  .step h (a := op) ⟨hop, rfl⟩

theorem FILE.Sound.step {sys : Sys} {f : FILE} (h : f.Sound) (hret : FILE.IntResults sys) (fuel : ℕ) {op : StdioOp}
    (hop : op.FlushesFirst sys f) : (op.step sys fuel f).Sound := by
  cases op with
  | fread size nmemb => exact h.fread hret fuel size nmemb hop
  | fwrite src size nmemb => exact h.fwrite fuel src size nmemb
  | fputc c => exact h.fwrite fuel _ 1 1
  | fgetc => exact h.fread hret fuel 1 1 fun _ _ => hop
  | ungetc c =>
      simp only [StdioOp.step, FILE.ungetc]
      split_ifs
      · exact h
      · exact ⟨h.size_lt, h.bufpos_le, h.buflen_le, h.read_le, h.not_both, h.touched_le⟩
  | fflush => exact (h.fflush sys).1
  | fseek =>
      have hs := h.settled sys
      refine ⟨hs.size_lt, Nat.zero_le _, Nat.zero_le _, fun _ => Nat.le_refl _, fun h' => ?_, hs.touched_le⟩
      cases h'
  | ftell =>
      have hs := h.settled sys
      exact ⟨hs.size_lt, hs.bufpos_le, hs.buflen_le, hs.read_le, hs.not_both, hs.touched_le⟩

/-- **The indices stay valid where no read follows a failed flush:** in every sequence of calls on
a stream in which each `fread` and `fgetc` finds nothing to write or writes it completely,
whatever the system calls return, `bufpos` is within the buffer, within what was read while the
stream is read, and every access was inside the buffer. -/
theorem stdio_indices_valid (sys : Sys) (hret : FILE.IntResults sys) (fuel : ℕ) (f : FILE)
    (h : (flushingSystem sys fuel).Reaches f) : f.ValidIndices := by
  refine (h.invariant (I := FILE.Sound) (fun f hf => ?_) fun f op f' hf hstep => ?_).validIndices
  · obtain ⟨hsize, hpos, hlen, hw, hr, ht⟩ := hf
    exact ⟨hsize, by omega, by omega, fun _ => by omega, fun _ => hw, by simp [ht]⟩
  · obtain ⟨hop, hstep⟩ := hstep
    exact Option.some.inj hstep ▸ hf.step hret fuel hop

/-- The hypotheses of `stdio_indices_valid` are satisfiable: `fputc` and then `fgetc`, with a write
that succeeds. -/
theorem stdio_indices_fputc_fgetc : ∃ (sys : Sys) (f : FILE), sys = ⟨fun _ => 5, fun _ _ => 'b'⟩ ∧
    f = StdioOp.fgetc.step sys 4 ((StdioOp.fputc 'a').step sys 4 (FILE.fopen 3 fun _ => 'x')) ∧
    f.reading = true ∧ f.ValidIndices := by
  let sys : Sys := ⟨fun _ => 5, fun _ _ => 'b'⟩
  have h₀ : (flushingSystem sys 4).Reaches (FILE.fopen 3 fun _ => 'x') := .init ⟨by decide, rfl, rfl, rfl, rfl, rfl⟩
  have h₁ := flushingSystem_step h₀ (.fputc 'a') trivial
  have h₂ := flushingSystem_step h₁ .fgetc fun _ => by decide +kernel
  exact ⟨sys, _, rfl, rfl, by decide +kernel, stdio_indices_valid sys (fun _ => (by decide : -2 ^ 31 ≤ (5 : ℤ))) 4 _ h₂⟩

/-- A write of one byte fails, and the `fread` behind it copies 2000 bytes out of a buffer of 1024. -/
theorem stdio_read_after_failed_flush : ∃ (sys : Sys) (f : FILE), FILE.IntResults sys ∧
    (stdioSystem sys 4).Reaches f ∧ f.bufsize = 1024 ∧ (1, 2000) ∈ f.touched ∧ ¬ f.ValidIndices := by
  let sys : Sys := ⟨fun _ => -1, fun _ _ => 'b'⟩
  have h₀ : (stdioSystem sys 4).Reaches (FILE.fopen 3 fun _ => 'x') := .init ⟨by decide, rfl, rfl, rfl, rfl, rfl⟩
  have h₂ := stdioSystem_step (stdioSystem_step h₀ (.fputc 'a')) (.fread 1 2000)
  refine ⟨sys, _, fun _ => (by decide : -2 ^ 31 ≤ (-1 : ℤ)), h₂, by decide +kernel, by decide +kernel, fun hv => ?_⟩
  exact absurd (hv.touched_le (1, 2000) (by decide +kernel)) (by decide +kernel)

end LighthOS
