/-
# Printing to a stream

`fwrite`, `vfprintf` and `printf` of `user/libc/stdio.c`, on a stream whose writes all succeed:
`sys_write` takes all that it is given.  The contents of a stream are what was sent and what
its buffer holds, and `fwrite` appends to them (`fwrite_appends`).

`vfprintf` formats into 512 bytes and writes what fits; `printf` formats into 1024 bytes and
writes as many bytes as `vsnprintf` returns, which counts what did not fit
(`prints_exactly_iff`).
-/

import LighthOS.User.Printf

namespace LighthOS

/-! ### `fwrite` -/

/-- `_IOFBF`, `_IOLBF` and `_IONBF`. -/
inductive BufMode
  | full
  | line
  | none
  deriving DecidableEq

/-- A `FILE` that is written to: `buf` are the bytes up to `bufpos`, and `sent` is what
`sys_write` has got. -/
structure Sink where
  bufmode : BufMode
  bufsize : ℕ
  buf : CString
  reading : Bool
  sent : CString

namespace Sink

/-- What was written to the stream.  A buffer that was read into is not part of it. -/
def stream (f : Sink) : CString := f.sent ++ if f.reading then [] else f.buf

/-- A buffer of at least one byte that is not overfull, or none. -/
structure Ok (f : Sink) : Prop where
  size_pos : f.bufmode ≠ .none → 0 < f.bufsize
  buf_le : f.bufmode ≠ .none → f.reading = false → f.buf.length ≤ f.bufsize
  buf_nil : f.bufmode = .none → f.reading = false → f.buf = []

/-- `fflush` of a stream that is written to. -/
def fflush (f : Sink) : Sink := { f with sent := f.sent ++ f.buf, buf := [] }

/-- The part of `fwrite` that writes up to the last newline. -/
def flushLines (f : Sink) : Sink :=
  let rest := f.buf.rtakeWhile (· != '\n')
  { f with sent := f.sent ++ f.buf.take (f.buf.length - rest.length), buf := rest }

/-- A round of the loop of `fwrite` with a buffer that has room. -/
def put (f : Sink) (s : CString) : Sink :=
  let f := { f with buf := f.buf ++ s }
  if f.bufmode = .line then f.flushLines else if f.buf.length = f.bufsize then f.fflush else f

/-- The loop of `fwrite`. -/
def writeLoop : ℕ → CString → Sink → Option Sink
  | _, [], f => some f
  | 0, _ :: _, _ => none
  | fuel + 1, c :: s, f =>
      let src := c :: s
      if f.bufmode = .none then writeLoop fuel [] { f with sent := f.sent ++ src }
      else
        let room := f.bufsize - f.buf.length
        if room = 0 then writeLoop fuel src f.fflush
        else writeLoop fuel (src.drop (min src.length room)) (f.put (src.take (min src.length room)))

/-- `fwrite(src, 1, n, f)`, which takes at most two rounds for each byte. -/
def fwrite (src : CString) (f : Sink) : Option Sink :=
  if src = [] then some f
  else writeLoop (2 * src.length) src { f with buf := if f.reading then [] else f.buf, reading := false }

end Sink

/-! ### `printf` -/

section Print

variable {F : Type} (D : Doubles F) (stack : ℕ → Char) (fmt : CString) (args : ℕ → VaArg F) (f : Sink)

/-- `vfprintf`: what it returns, how many bytes of `scratch` it reads, and the stream.  `stack` are
the bytes from `scratch` on. -/
def vfprintf : Option (ℤ × ℕ × Sink) :=
  (vsnprintf D stack 512 fmt args).bind fun (n, mem) =>
    if n < 0 then some (n, 0, f)
    else
      let toWrite := min n.toNat 511
      (f.fwrite ((List.range toWrite).map mem)).map fun f => (n, toWrite, f)

/-- `printf`, on `stdout`. -/
def printf : Option (ℤ × ℕ × Sink) :=
  (vsnprintf D stack 1024 fmt args).bind fun (n, mem) =>
    if 0 < n then (f.fwrite ((List.range n.toNat).map mem)).map fun f => (n, n.toNat, f)
    else some (n, 0, f)

/-- The call appends the full output to the stream, reads no byte behind the text in a scratch
buffer of `size` bytes, and returns the length of the full output. -/
def PrintsExactly (size : ℕ) (r : Option (ℤ × ℕ × Sink)) : Prop :=
  ∃ reads f', r = some (((formatted D fmt args).length : ℤ), reads, f') ∧
    f'.stream = f.stream ++ formatted D fmt args ∧ reads ≤ min (formatted D fmt args).length (size - 1)

end Print

/-! ### What they write -/

namespace Sink

variable {f : Sink}

theorem flushLines_spec (f : Sink) : f.flushLines.sent ++ f.flushLines.buf = f.sent ++ f.buf ∧
    f.flushLines.buf.length ≤ f.buf.length := by
  have hsuffix := List.rtakeWhile_suffix (· != '\n') f.buf
  refine ⟨?_, hsuffix.length_le⟩
  simp only [flushLines, List.append_assoc]
  obtain ⟨pre, hpre⟩ := hsuffix
  have hlen := congrArg List.length hpre
  rw [List.length_append] at hlen
  rw [← hlen, Nat.add_sub_cancel]
  have htake : f.buf.take pre.length = pre := by rw [← hpre, List.take_left]
  rw [htake, hpre]

/-- A stream that is written to, between two rounds. -/
structure Writing (f : Sink) : Prop extends f.Ok where
  writing : f.reading = false

theorem Writing.stream_eq (hf : f.Writing) : f.stream = f.sent ++ f.buf := by
  rw [stream, hf.writing]
  rfl

theorem Writing.fflush (hf : f.Writing) : f.fflush.Writing ∧ f.fflush.stream = f.stream := by
  refine ⟨⟨⟨hf.size_pos, fun _ _ => Nat.zero_le _, fun _ _ => rfl⟩, hf.writing⟩, ?_⟩
  rw [hf.stream_eq]
  simp [stream, Sink.fflush, hf.writing]

/-- **A round with room** appends its bytes. -/
theorem Writing.put (hf : f.Writing) (hmode : f.bufmode ≠ .none) {s : CString}
    (hs : f.buf.length + s.length ≤ f.bufsize) : (f.put s).Writing ∧ (f.put s).stream = f.stream ++ s := by
  have hadd : Sink.Writing { f with buf := f.buf ++ s } :=
    ⟨⟨hf.size_pos, fun _ _ => by rw [List.length_append]; exact hs, fun h => absurd h hmode⟩, hf.writing⟩
  have hstream : Sink.stream { f with buf := f.buf ++ s } = f.stream ++ s := by
    rw [hadd.stream_eq, hf.stream_eq, List.append_assoc]
  unfold Sink.put
  dsimp only
  split_ifs
  · obtain ⟨heq, hle⟩ := flushLines_spec { f with buf := f.buf ++ s }
    refine ⟨⟨⟨hf.size_pos, fun _ _ => ?_, fun h => absurd h hmode⟩, hf.writing⟩, ?_⟩
    · exact hle.trans (hadd.buf_le hmode hadd.writing)
    · rw [← hstream, hadd.stream_eq, ← heq, stream, if_neg]
      exact Bool.not_eq_true _ ▸ hf.writing
  · exact ⟨hadd.fflush.1, hadd.fflush.2.trans hstream⟩
  · exact ⟨hadd, hstream⟩

theorem writeLoop_nil (fuel : ℕ) (f : Sink) : writeLoop fuel [] f = some f := by
  cases fuel <;> rfl

/-- **The loop of `fwrite`** ends and appends its bytes: at most one round in two finds the buffer
full. -/
theorem Writing.writeLoop (hf : f.Writing) (fuel : ℕ) (src : CString)
    (hfuel : 2 * src.length ≤ fuel + if f.buf.length < f.bufsize then 1 else 0) :
    ∃ f', writeLoop fuel src f = some f' ∧ f'.Writing ∧ f'.stream = f.stream ++ src := by
  induction fuel generalizing src f with
  | zero =>
      cases src with
      | nil => exact ⟨f, rfl, hf, (List.append_nil _).symm⟩
      | cons c s =>
          rw [List.length_cons] at hfuel
          split_ifs at hfuel <;> omega
  | succ fuel ih =>
      cases src with
      | nil => exact ⟨f, rfl, hf, (List.append_nil _).symm⟩
      | cons c s =>
          unfold Sink.writeLoop
          dsimp only
          by_cases hmode : f.bufmode = .none
          · rw [if_pos hmode]
            have hnil := hf.buf_nil hmode hf.writing
            refine ⟨_, Sink.writeLoop_nil _ _, ⟨⟨hf.size_pos, hf.buf_le, hf.buf_nil⟩, hf.writing⟩, ?_⟩
            rw [hf.stream_eq, hnil]
            simp [stream]
          rw [if_neg hmode]
          have hle := hf.buf_le hmode hf.writing
          have hpos := hf.size_pos hmode
          split_ifs with hroom
          · obtain ⟨hflush, hstream⟩ := hf.fflush
            rw [← hstream]
            refine ih hflush _ (hfuel.trans ?_)
            rw [if_neg (by omega), if_pos]
            exact hpos
          · have hlen : (c :: s).length = s.length + 1 := rfl
            generalize c :: s = src at hfuel hlen ⊢
            obtain ⟨hput, hstream⟩ := hf.put hmode (s := src.take (min src.length (f.bufsize - f.buf.length)))
              (by rw [List.length_take]; omega)
            obtain ⟨f', hrun, hf', hstream'⟩ := ih hput (src.drop (min src.length (f.bufsize - f.buf.length)))
              (by
                rw [if_pos (by omega)] at hfuel
                rw [List.length_drop]
                split_ifs <;> omega)
            refine ⟨f', hrun, hf', ?_⟩
            rw [hstream', hstream, List.append_assoc, List.take_append_drop]

/-- **`fwrite`** appends its bytes to the stream. -/
theorem fwrite_appends (hf : f.Ok) (src : CString) :
    ∃ f', f.fwrite src = some f' ∧ f'.Ok ∧ f'.stream = f.stream ++ src := by
  unfold fwrite
  by_cases hnil : src = []
  · rw [if_pos hnil]
    exact ⟨f, rfl, hf, by rw [hnil, List.append_nil]⟩
  rw [if_neg hnil]
  have hw : Sink.Writing { f with buf := if f.reading then [] else f.buf, reading := false } := by
    refine ⟨⟨hf.size_pos, fun hmode _ => ?_, fun hmode _ => ?_⟩, rfl⟩
    · dsimp only
      split_ifs with hread
      · exact Nat.zero_le _
      · exact hf.buf_le hmode (by simpa using hread)
    · dsimp only
      split_ifs with hread
      · rfl
      · exact hf.buf_nil hmode (by simpa using hread)
  obtain ⟨f', hrun, hf', hstream⟩ := hw.writeLoop (2 * src.length) src (Nat.le_add_right _ _)
  exact ⟨f', hrun, hf'.toOk, hstream⟩

end Sink

section Print

variable {F : Type} {D : Doubles F} {stack : ℕ → Char} {fmt : CString} {args : ℕ → VaArg F} {f : Sink}

/-- A store outside a scratch buffer of `vsnprintf`: nothing is known of the call any more. -/
theorem vsnprintf_eq_none (h : ¬ ∀ d, .conv d ∈ items args fmt 0 0 → d.FloatFits D) (size : ℕ) :
    vsnprintf D stack size fmt args = none := by
  push Not at h
  obtain ⟨d, hd, hfits⟩ := h
  rw [vsnprintf, foldlM_run_eq_none hd (d.inBounds_iff.not.2 hfits), Option.map_none]

/-- What `vsnprintf` returns, and what its callers read from the scratch buffer. -/
theorem vsnprintf_reads (stack : ℕ → Char) (h : ∀ d, .conv d ∈ items args fmt 0 0 → d.FloatFits D)
    (hL : (formatted D fmt args).length < 2 ^ 31) (size : ℕ) :
    ∃ mem, vsnprintf D stack size fmt args = some (((formatted D fmt args).length : ℤ), mem) ∧
      ∀ n ≤ min (formatted D fmt args).length (size - 1),
        (List.range n).map mem = (formatted D fmt args).take n := by
  rw [vsnprintf_eq fun d hd => d.inBounds_iff.2 (h d hd), i32_of_lt hL]
  refine ⟨_, rfl, fun n hn => List.ext_getElem (by simp; omega) fun i hi _ => ?_⟩
  rw [List.length_map, List.length_range] at hi
  have hlt : i < (formatted D fmt args).length := by omega
  rw [List.getElem_map, List.getElem_range, if_neg (by omega), if_pos (by omega),
    List.getElem?_eq_getElem hlt, Option.getD_some, List.getElem_take]

theorem prints_printf_iff (h : ∀ d, .conv d ∈ items args fmt 0 0 → d.FloatFits D)
    (hL : (formatted D fmt args).length < 2 ^ 31) (hf : f.Ok) :
    PrintsExactly D fmt args f 1024 (printf D stack fmt args f) ↔ (formatted D fmt args).length ≤ 1023 := by
  obtain ⟨mem, hrun, hmem⟩ := vsnprintf_reads stack h hL 1024
  rw [printf, hrun, Option.bind_some]
  dsimp only
  split_ifs with hpos
  · obtain ⟨f', hwrite, -, hstream⟩ := Sink.fwrite_appends hf ((List.range (formatted D fmt args).length).map mem)
    rw [Int.toNat_natCast, hwrite, Option.map_some]
    constructor
    · rintro ⟨_, _, ⟨⟩, -, hreads⟩
      omega
    · intro hle
      refine ⟨_, _, rfl, ?_, by omega⟩
      rw [hstream, hmem _ (by omega), List.take_length]
  · have hzero : (formatted D fmt args).length = 0 := by omega
    rw [hzero]
    refine iff_of_true ⟨0, f, by rw [hzero], ?_, Nat.zero_le _⟩ (Nat.zero_le _)
    rw [List.length_eq_zero_iff.1 hzero, List.append_nil]

theorem prints_vfprintf_iff (h : ∀ d, .conv d ∈ items args fmt 0 0 → d.FloatFits D)
    (hL : (formatted D fmt args).length < 2 ^ 31) (hf : f.Ok) :
    PrintsExactly D fmt args f 512 (vfprintf D stack fmt args f) ↔ (formatted D fmt args).length ≤ 511 := by
  obtain ⟨mem, hrun, hmem⟩ := vsnprintf_reads stack h hL 512
  rw [vfprintf, hrun, Option.bind_some]
  dsimp only
  rw [if_neg (by omega), Int.toNat_natCast]
  obtain ⟨f', hwrite, -, hstream⟩ :=
    Sink.fwrite_appends hf ((List.range (min (formatted D fmt args).length 511)).map mem)
  rw [hwrite, Option.map_some]
  rw [hmem _ le_rfl] at hstream
  constructor
  · rintro ⟨_, _, ⟨⟩, happ, -⟩
    have hlen := congrArg List.length (List.append_cancel_left (hstream.symm.trans happ))
    rw [List.length_take] at hlen
    omega
  · intro hle
    refine ⟨_, _, rfl, ?_, le_rfl⟩
    rw [hstream, min_eq_left hle, List.take_length]

/-- **`printf` and `vfprintf` emit exactly the formatted text** where each conversion of a `double`
fits into its scratch buffer and the full output into theirs. -/
theorem prints_exactly_iff (hL : (formatted D fmt args).length < 2 ^ 31) (hf : f.Ok) :
    (PrintsExactly D fmt args f 1024 (printf D stack fmt args f) ↔
      (∀ d, .conv d ∈ items args fmt 0 0 → d.FloatFits D) ∧ (formatted D fmt args).length ≤ 1023) ∧
    (PrintsExactly D fmt args f 512 (vfprintf D stack fmt args f) ↔
      (∀ d, .conv d ∈ items args fmt 0 0 → d.FloatFits D) ∧ (formatted D fmt args).length ≤ 511) := by
  by_cases h : ∀ d, .conv d ∈ items args fmt 0 0 → d.FloatFits D
  · rw [prints_printf_iff h hL hf, prints_vfprintf_iff h hL hf]
    exact ⟨(and_iff_right h).symm, (and_iff_right h).symm⟩
  · rw [printf, vfprintf, vsnprintf_eq_none h, vsnprintf_eq_none h]
    refine ⟨iff_of_false ?_ fun hand => h hand.1, iff_of_false ?_ fun hand => h hand.1⟩ <;>
    · rintro ⟨_, _, ⟨⟩, -⟩

end Print

/-- The hypotheses of `prints_exactly_iff` are satisfiable: `printf("hi")` on an empty buffer of four
bytes. -/
theorem prints_exactly_iff_hi : PrintsExactly exactDoubles "hi".toList (fun _ => ⟨0, [], 0⟩)
    ⟨.full, 4, [], false, []⟩ 1024
    (printf exactDoubles (fun _ => ' ') "hi".toList (fun _ => ⟨0, [], 0⟩) ⟨.full, 4, [], false, []⟩) :=
  (prints_exactly_iff (by decide) ⟨fun _ => by decide, fun _ _ => by decide, fun h => BufMode.noConfusion h⟩).1.2
    ⟨fun d hd => by simp [items] at hd, by decide⟩

/-- **A long output:** of the 600 characters of `%600d` `vfprintf` appends 511, and of the 1024 bytes of its
scratch buffer `printf` reads 1100 for `%1100d`. -/
theorem long_output_cut :
    (∃ r, vfprintf exactDoubles (fun _ => ' ') "%600d".toList (fun _ => ⟨0, [], 0⟩) ⟨.full, 4096, [], false, []⟩ =
      some r ∧ (r.1 = 600 ∧ r.2.1 = 511 ∧ r.2.2.stream.length = 511)) ∧
    ∃ r, printf exactDoubles (fun _ => ' ') "%1100d".toList (fun _ => ⟨0, [], 0⟩) ⟨.full, 4096, [], false, []⟩ =
      some r ∧ (r.1 = 1100 ∧ r.2.1 = 1100) := by
  have hcut : (vfprintf exactDoubles (fun _ => ' ') "%600d".toList (fun _ => ⟨0, [], 0⟩)
      ⟨.full, 4096, [], false, []⟩).any fun r => r.1 = 600 ∧ r.2.1 = 511 ∧ r.2.2.stream.length = 511 := by
    decide +kernel
  have hread : (printf exactDoubles (fun _ => ' ') "%1100d".toList (fun _ => ⟨0, [], 0⟩)
      ⟨.full, 4096, [], false, []⟩).any fun r => r.1 = 1100 ∧ r.2.1 = 1100 := by
    decide +kernel
  obtain ⟨r, hr, h⟩ := (Option.any_eq_true _ _).1 hcut
  obtain ⟨r', hr', h'⟩ := (Option.any_eq_true _ _).1 hread
  exact ⟨⟨r, hr, of_decide_eq_true h⟩, r', hr', of_decide_eq_true h'⟩

end LighthOS
