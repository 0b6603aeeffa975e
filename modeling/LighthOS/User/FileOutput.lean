/-
# Output through streams

What the functions of `user/libc/stdio.c` send where every `sys_write` takes all that it is given.
A stream that is written to is then a `Sink` as `vfprintf` sees it (`FILE.toSink`): flushing it
(`Output.fflush`), the part up to the last newline (`toSink_flushLines`) and the loop of `fwrite`
(`fwriteLoop_toSink`) do the same to both.

Over any sequence of calls, what was sent and what is in the buffer are the data of the calls, and
nothing is buffered behind `fflush` and `fclose` (`stdio_output_complete`), as long as a buffer is
smaller than 2 ^ 31 bytes.  The result of a larger write is negative as a `ssize_t`: the flush
fails, and the bytes are both sent and kept (`stdio_sends_twice`).
-/

import LighthOS.User.File

namespace LighthOS

namespace FILE

/-- Every write takes all that it is given. -/
def CompleteWrites (sys : Sys) : Prop := ∀ i, 2 ^ 32 ≤ sys.ret i

/-- The stream as a `Sink` that is written to. -/
def toSink (f : FILE) : Sink := ⟨f.bufmode, f.bufsize, f.bytes 0 f.bufpos, false, f.sent⟩

variable {sys : Sys} {f : FILE}

@[simp]
theorem length_bytes (f : FILE) (o n : ℕ) : (f.bytes o n).length = n := by
  rw [bytes, List.length_map, List.length_range]

theorem bytes_succ (f : FILE) (o n : ℕ) : f.bytes o (n + 1) = f.bytes o n ++ [f.buf (o + n)] := by
  rw [bytes, List.range_succ, List.map_append]
  rfl

/-- The state between two calls that write. -/
structure Output (f : FILE) : Prop where
  size_lt : f.bufsize < 2 ^ 31
  not_reading : f.reading = false
  idle : f.writing = false → f.bufpos = 0
  file : f.toSink.Writing

theorem Output.bufpos_le (h : f.Output) (hmode : f.bufmode ≠ .none) : f.bufpos ≤ f.bufsize := by
  have hle := h.file.buf_le hmode rfl
  rwa [toSink, length_bytes] at hle

theorem Output.bufpos_lt (h : f.Output) : f.bufpos < 2 ^ 31 := by
  have hlt := h.size_lt
  by_cases hmode : f.bufmode = .none
  · have hnil := congrArg List.length (h.file.buf_nil hmode rfl)
    rw [toSink, length_bytes, List.length_nil] at hnil
    omega
  · have := h.bufpos_le hmode
    omega

theorem CompleteWrites.sysWrite (hc : CompleteWrites sys) (f : FILE) {s : CString} (hs : s.length < 2 ^ 31) :
    (f.sysWrite sys s).1 = s.length := by
  have hret := hc f.calls
  unfold FILE.sysWrite
  rw [min_eq_right (by omega), i32_of_lt hs]

/-- **A flush** succeeds and sends what is buffered. -/
theorem Output.fflush (h : f.Output) (hc : CompleteWrites sys) : (f.fflush sys).1 = 0 ∧
    (f.fflush sys).2.toSink = f.toSink.fflush ∧ (f.fflush sys).2.bufpos = 0 ∧ (f.fflush sys).2.Output := by
  have hwrite : (f.writeBuf sys f.bufpos).1 = f.bufpos := by
    rw [writeBuf, hc.sysWrite _ (by rw [length_bytes]; exact h.bufpos_lt), length_bytes]
  have hout : ∀ {g : FILE}, g.bufsize = f.bufsize → g.bufpos = 0 → g.reading = false →
      g.toSink = f.toSink.fflush → g.toSink = f.toSink.fflush ∧ g.bufpos = 0 ∧ g.Output :=
    fun hsize hpos hr heq => ⟨heq, hpos, hsize ▸ h.size_lt, hr, fun _ => hpos, heq ▸ h.file.fflush.1⟩
  have hway := fflush_way sys f
  generalize f.fflush sys = r at hway
  cases hway with
  | failed hn => exact absurd hwrite hn
  | done hn => exact ⟨rfl, hout rfl rfl h.not_reading rfl⟩
  | idle hidle =>
      have hpos : f.bufpos = 0 := by
        cases hw : f.writing with
        | true => exact hidle hw
        | false => exact h.idle hw
      refine ⟨rfl, hout rfl hpos h.not_reading ?_⟩
      simp only [toSink, Sink.fflush, hpos, bytes, List.range_zero, List.map_nil, List.append_nil]

/-- Bytes that are stored are appended to the buffer. -/
theorem toSink_store {s : CString} (h : f.bufpos + s.length < 2 ^ 32) :
    (f.store s).toSink = { f.toSink with buf := f.toSink.buf ++ s } := by
  have hpos : (f.store s).bufpos = f.bufpos + s.length := Nat.mod_eq_of_lt h
  have hbytes : (f.store s).bytes 0 (f.bufpos + s.length) = f.bytes 0 f.bufpos ++ s := by
    refine List.ext_getElem (by simp) fun i hi _ => ?_
    rw [length_bytes] at hi
    simp only [bytes, List.getElem_map, List.getElem_range, Nat.zero_add, FILE.store]
    rcases lt_or_ge i f.bufpos with hlt | hge
    · rw [if_neg (by omega), List.getElem_append_left (by simpa using hlt)]
      simp
    · rw [if_pos hge, List.getElem_append_right (by simpa using hge), List.getElem?_eq_getElem (by omega)]
      simp
  simp only [toSink, hpos, hbytes]
  rfl

/-- A round of a `Sink` in terms of the bytes that are stored. -/
theorem toSink_put {s : CString} (h : f.bufpos + s.length < 2 ^ 32) : f.toSink.put s =
    if f.bufmode = .line then (f.store s).toSink.flushLines
    else if (f.store s).bufpos = f.bufsize then (f.store s).toSink.fflush else (f.store s).toSink := by
  have hlen : (f.toSink.buf ++ s).length = (f.store s).bufpos := by
    rw [List.length_append, toSink, length_bytes]
    exact (Nat.mod_eq_of_lt h).symm
  rw [toSink_store h]
  unfold Sink.put
  dsimp only
  rw [hlen]
  rfl

/-- What stands behind the last newline. -/
theorem rtakeWhile_bytes (f : FILE) (n : ℕ) : (f.bytes 0 n).rtakeWhile (· != '\n') =
    match lastNewline f.buf n with
    | none => f.bytes 0 n
    | some i => f.bytes (i + 1) (n - (i + 1)) := by
  induction n with
  | zero => rfl
  | succ n ih =>
      rw [bytes_succ, Nat.zero_add, lastNewline]
      by_cases hn : f.buf n = '\n'
      · rw [if_pos hn, List.rtakeWhile_concat_neg _ _ _ (by simp [hn])]
        simp [bytes]
      · rw [if_neg hn, List.rtakeWhile_concat_pos _ _ _ (by simp [hn]), ih]
        cases hi : lastNewline f.buf n with
        | none => rfl
        | some i =>
            have hlt := (lastNewline_lt hi).1
            dsimp only
            rw [Nat.sub_add_comm hlt, bytes_succ, Nat.add_sub_cancel' hlt]

/-- **The part up to the last newline** is sent, and the rest stays. -/
theorem toSink_flushLines (sys : Sys) (h : f.bufpos < 2 ^ 31) : (f.flushLines sys).toSink = f.toSink.flushLines := by
  unfold FILE.flushLines
  rw [if_neg (by omega)]
  have hrest := rtakeWhile_bytes f f.bufpos
  cases hi : lastNewline f.buf f.bufpos with
  | none =>
      rw [hi] at hrest
      dsimp only at hrest ⊢
      simp only [toSink, Sink.flushLines, hrest, Nat.sub_self, List.take_zero, List.append_nil]
  | some i =>
      have hlt := (lastNewline_lt hi).1
      rw [hi] at hrest
      dsimp only at hrest ⊢
      have hsent : (f.bytes 0 f.bufpos).take (i + 1) = f.bytes 0 (i + 1) := by
        rw [bytes, ← List.map_take, List.take_range, min_eq_left (by omega)]
        rfl
      have hkept : (f.flushUpTo sys i).bytes 0 (f.bufpos - (i + 1)) = f.bytes (i + 1) (f.bufpos - (i + 1)) := by
        refine List.map_congr_left fun j hj => ?_
        rw [List.mem_range] at hj
        simp only [flushUpTo, Nat.zero_add, if_pos hj]
      simp only [Sink.flushLines, toSink, hrest, length_bytes, Nat.sub_sub_self (Nat.succ_le_of_lt hlt), hsent]
      rw [← hkept]
      rfl

theorem fwriteLoop_nil (fuel : ℕ) (f : FILE) : fwriteLoop sys fuel [] f = ([], f) := by
  cases fuel <;> rfl

theorem flushLines_flags (sys : Sys) (f : FILE) : (f.flushLines sys).bufsize = f.bufsize ∧
    (f.flushLines sys).reading = f.reading ∧ (f.flushLines sys).writing = f.writing := by
  unfold FILE.flushLines
  split_ifs
  · exact ⟨rfl, rfl, rfl⟩
  · cases lastNewline f.buf f.bufpos <;> exact ⟨rfl, rfl, rfl⟩

theorem Output.room_eq (h : f.Output) (hmode : f.bufmode ≠ .none) : f.room = f.bufsize - f.bufpos := by
  have hle := h.bufpos_le hmode
  have hlt := h.size_lt
  unfold FILE.room
  omega

/-- A stream that is written to is in order where its `Sink` is. -/
theorem Output.of_file (h : f.Output) {g : FILE} (hsize : g.bufsize = f.bufsize) (hr : g.reading = f.reading)
    (hw : g.writing = true) (hfile : g.toSink.Writing) : g.Output :=
  ⟨hsize ▸ h.size_lt, hr.trans h.not_reading, fun h' => Bool.noConfusion (hw.symm.trans h'), hfile⟩

/-- The flush inside `fwrite`. -/
theorem Output.flushOn (h : f.Output) (hc : CompleteWrites sys) : (f.flushOn sys).1 = 0 ∧
    (f.flushOn sys).2.toSink = f.toSink.fflush ∧ (f.flushOn sys).2.writing = true ∧ (f.flushOn sys).2.Output := by
  obtain ⟨hr, hfile, -, hout⟩ := h.fflush hc
  unfold FILE.flushOn
  dsimp only
  rw [if_neg (not_not.2 hr)]
  exact ⟨hr, hfile, rfl, hout.of_file rfl rfl rfl hout.file⟩

/-- **A round that stores** does to the stream what that of a `Sink` does. -/
theorem Output.put (h : f.Output) (hc : CompleteWrites sys) (hw : f.writing = true) (hmode : f.bufmode ≠ .none)
    {s : CString} (hs : f.bufpos + s.length ≤ f.bufsize) : (f.put sys s).1 = 0 ∧
    (f.put sys s).2.toSink = f.toSink.put s ∧ (f.put sys s).2.writing = true ∧ (f.put sys s).2.Output := by
  have hlt := h.size_lt
  have hput := (h.file.put hmode (s := s) (by rw [toSink, length_bytes]; exact hs)).1
  have hstore := toSink_store (f := f) (s := s) (by omega)
  have hout : (f.store s).Output := by
    refine h.of_file rfl rfl hw (hstore ▸ ⟨⟨h.file.size_pos, fun _ _ => ?_, fun h' => absurd h' hmode⟩, rfl⟩)
    rw [List.length_append, toSink, length_bytes]
    exact hs
  rw [toSink_put (by omega)] at hput ⊢
  unfold FILE.put
  dsimp only
  by_cases hline : f.bufmode = .line
  · obtain ⟨hsize, hr, hw'⟩ := flushLines_flags sys (f.store s)
    have hfile := toSink_flushLines sys hout.bufpos_lt
    rw [if_pos hline] at hput ⊢
    rw [if_pos (show (f.store s).bufmode = .line from hline)]
    exact ⟨rfl, hfile, hw'.trans hw, hout.of_file hsize hr (hw'.trans hw) (hfile ▸ hput)⟩
  rw [if_neg hline, if_neg (show ¬ (f.store s).bufmode = .line from hline)]
  by_cases hfull : (f.store s).bufpos = f.bufsize
  · rw [if_pos hfull, if_pos (show (f.store s).bufpos = (f.store s).bufsize from hfull)]
    exact hout.flushOn hc
  · rw [if_neg hfull, if_neg (show ¬ (f.store s).bufpos = (f.store s).bufsize from hfull)]
    exact ⟨rfl, rfl, hw, hout⟩

/-- **The loop of `fwrite`** does to the stream what that of a `Sink` does. -/
theorem fwriteLoop_toSink (hc : CompleteWrites sys) (h : f.Output) (hw : f.writing = true) (fuel : ℕ)
    {src : CString} (hsrc : src.length < 2 ^ 31) {g : Sink} (hg : Sink.writeLoop fuel src f.toSink = some g) :
    ∃ f', fwriteLoop sys fuel src f = ([], f') ∧ f'.toSink = g ∧ f'.Output := by
  induction fuel generalizing f src with
  | zero =>
      cases src with
      | nil => exact ⟨f, rfl, Option.some.inj hg, h⟩
      | cons c s => cases hg
  | succ fuel ih =>
      cases src with
      | nil => exact ⟨f, rfl, Option.some.inj hg, h⟩
      | cons c s =>
          unfold Sink.writeLoop at hg
          unfold FILE.fwriteLoop
          generalize hs : c :: s = src at hg hsrc ⊢
          rw [if_neg (by simp [← hs])]
          dsimp only at hg ⊢
          by_cases hmode : f.bufmode = .none
          · rw [if_pos (show f.toSink.bufmode = .none from hmode), Sink.writeLoop_nil] at hg
            rw [if_pos hmode, hc.sysWrite f hsrc, if_neg (by omega), Int.toNat_natCast, List.drop_length,
              fwriteLoop_nil]
            exact ⟨_, rfl, Option.some.inj hg, h.of_file rfl rfl hw ⟨⟨h.file.size_pos, h.file.buf_le,
              h.file.buf_nil⟩, rfl⟩⟩
          have hroom : f.toSink.bufsize - f.toSink.buf.length = f.room := by
            rw [h.room_eq hmode, toSink, length_bytes]
          rw [if_neg (show ¬ f.toSink.bufmode = .none from hmode), hroom] at hg
          rw [if_neg hmode]
          by_cases hfull : f.room = 0
          · obtain ⟨hr, hfile, hw', hout⟩ := h.flushOn hc
            rw [if_pos hfull, ← hfile] at hg
            rw [if_pos hfull, if_neg (not_not.2 hr)]
            exact ih hout hw' hsrc hg
          · obtain ⟨hr, hfile, hw', hout⟩ := h.put hc hw hmode (s := src.take (min src.length f.room)) (by
              have hle := h.bufpos_le hmode
              rw [List.length_take, h.room_eq hmode]
              omega)
            rw [if_neg hfull, ← hfile] at hg
            rw [if_neg hfull, if_neg (not_not.2 hr)]
            exact ih hout hw' (by rw [List.length_drop]; omega) hg

theorem startWriting_eq (hr : f.reading = false) : f.startWriting = { f with writing := true } := by
  rw [startWriting, if_neg (by simp [hr])]

/-- What was sent and what is buffered. -/
def stream (f : FILE) : CString := f.sent ++ f.bytes 0 f.bufpos

/-- **`fwrite`** appends its bytes. -/
theorem Output.fwrite (h : f.Output) (hc : CompleteWrites sys) {fuel : ℕ} (hfuel : 2 ^ 32 ≤ fuel) (src : ℕ → Char)
    (size nmemb : ℕ) (hsize : size * nmemb < 2 ^ 31) : (f.fwrite sys fuel src size nmemb).2.Output ∧
    (f.fwrite sys fuel src size nmemb).2.stream = f.stream ++ (List.range (size * nmemb)).map src := by
  unfold FILE.fwrite
  by_cases hzero : size = 0 ∨ nmemb = 0
  · rw [if_pos hzero, Nat.mul_eq_zero.2 hzero]
    exact ⟨h, (List.append_nil _).symm⟩
  have hstart := startWriting_eq h.not_reading
  have hout : f.startWriting.Output := hstart ▸ h.of_file rfl rfl rfl h.file
  have hlen : ((List.range (size * nmemb)).map src).length = size * nmemb := by simp
  rw [if_neg hzero, Nat.mod_eq_of_lt (by omega)]
  dsimp only
  generalize (List.range (size * nmemb)).map src = s at hlen ⊢
  obtain ⟨g, hg, -, hstream⟩ := hout.file.writeLoop fuel s (by omega)
  obtain ⟨f', hrun, rfl, hf'⟩ := fwriteLoop_toSink hc hout (by rw [hstart]) fuel (by omega) hg
  rw [hrun]
  refine ⟨hf', ?_⟩
  rw [Sink.Writing.stream_eq hf'.file, Sink.Writing.stream_eq hout.file, hstart] at hstream
  exact hstream

theorem Output.stream_fflush (h : f.Output) (hc : CompleteWrites sys) : (f.fflush sys).2.stream = f.stream := by
  obtain ⟨-, hfile, hpos, -⟩ := h.fflush hc
  rw [stream, hpos, show (f.fflush sys).2.sent = f.stream from congrArg Sink.sent hfile]
  exact List.append_nil _

/-- An empty buffer of some size. -/
theorem Output.of_empty (hpos : f.bufpos = 0) (hr : f.reading = false) (h₀ : 1 ≤ f.bufsize)
    (hlt : f.bufsize < 2 ^ 31) : f.Output := by
  have hnil : f.toSink.buf = [] := by
    rw [toSink, hpos]
    rfl
  exact ⟨hlt, hr, fun _ => hpos, ⟨fun _ => h₀, fun _ _ => hnil ▸ Nat.zero_le _, fun _ _ => hnil⟩, rfl⟩

/-- **`setvbuf`** sends what is buffered before it changes the buffer. -/
theorem Output.setvbuf (h : f.Output) (hc : CompleteWrites sys) (own : Bool) (fresh : ℕ → Char) (mallocOk : Bool)
    (mode : BufMode) {size : ℕ} (h₀ : 1 ≤ size) (hlt : size < 2 ^ 31) :
    (f.setvbuf sys own fresh mallocOk mode size).2.Output ∧
      (f.setvbuf sys own fresh mallocOk mode size).2.stream = f.stream := by
  obtain ⟨-, -, hpos, hout⟩ := h.fflush hc
  have hstream := h.stream_fflush hc
  have hnew : ∀ {g : FILE}, g.bufpos = 0 → g.reading = false → g.bufsize = size →
      g.sent = (f.fflush sys).2.sent → g.Output ∧ g.stream = f.stream := by
    intro g hg hr hsize hsent
    refine ⟨.of_empty hg hr (hsize ▸ h₀) (hsize ▸ hlt), ?_⟩
    rw [← hstream, stream, stream, hg, hpos, hsent]
    rfl
  unfold FILE.setvbuf
  dsimp only
  split_ifs with hown hsize hmalloc
  · exact hnew rfl hout.not_reading rfl rfl
  · exact hnew rfl hout.not_reading rfl rfl
  · exact ⟨hout, hstream⟩
  · refine hnew rfl hout.not_reading ?_ rfl
    change (f.fflush sys).2.bufsize = size
    omega

end FILE

/-! ### Sequences of calls -/

/-- The calls that write to a stream. -/
inductive OutputOp
  | fwrite (src : ℕ → Char) (size nmemb : ℕ)
  | fputc (c : Char)
  | fputs (s : CString)
  | fflush
  | setvbuf (own : Bool) (fresh : ℕ → Char) (mallocOk : Bool) (mode : BufMode) (size : ℕ)

namespace OutputOp

/-- One call; its loop may make `fuel` rounds. -/
def step (sys : Sys) (fuel : ℕ) (f : FILE) : OutputOp → FILE
  | fwrite src size nmemb => (f.fwrite sys fuel src size nmemb).2
  | fputc c => (f.fputc sys fuel c).2
  | fputs s => (f.fputs sys fuel s).2
  | fflush => (f.fflush sys).2
  | setvbuf own fresh mallocOk mode size => (f.setvbuf sys own fresh mallocOk mode size).2

/-- What a call writes. -/
def data : OutputOp → CString
  | fwrite src size nmemb => (List.range (size * nmemb)).map src
  | fputc c => [c]
  | fputs s => s
  | _ => []

/-- The arguments that are considered: fewer than 2 ^ 31 bytes, and a buffer that is not empty. -/
def Allowed : OutputOp → Prop
  | fwrite _ size nmemb => size * nmemb < 2 ^ 31
  | setvbuf _ _ _ _ size => 1 ≤ size
  | _ => True

/-- A buffer and a string of fewer than 2 ^ 31 bytes. -/
def Small : OutputOp → Prop
  | fputs s => s.length < 2 ^ 31
  | setvbuf _ _ _ _ size => size < 2 ^ 31
  | _ => True

end OutputOp

/-- A stream that was opened for writing, with a buffer of any size. -/
structure FILE.Opened (f : FILE) : Prop where
  bufpos_eq : f.bufpos = 0
  not_writing : f.writing = false
  not_reading : f.reading = false
  sent_eq : f.sent = []
  size_pos : 1 ≤ f.bufsize

theorem FILE.Output.step {sys : Sys} {f : FILE} (h : f.Output) (hc : FILE.CompleteWrites sys) {fuel : ℕ}
    (hfuel : 2 ^ 32 ≤ fuel) {op : OutputOp} (hop : op.Allowed) (hsmall : op.Small) :
    (op.step sys fuel f).Output ∧ (op.step sys fuel f).stream = f.stream ++ op.data := by
  cases op with
  | fwrite src size nmemb => exact h.fwrite hc hfuel src size nmemb hop
  | fputc c => exact h.fwrite hc hfuel (fun _ => c) 1 1 (by decide)
  | fputs s =>
      have hdata : (List.range (1 * s.length)).map (fun i => s.getD i '\x00') = s := by
        refine List.ext_getElem (by simp) fun i _ hi => ?_
        rw [List.getElem_map, List.getElem_range, List.getD_eq_getElem?_getD, List.getElem?_eq_getElem hi,
          Option.getD_some]
      have hlen : s.length < 2 ^ 31 := hsmall
      have hwrite := h.fwrite hc hfuel (fun i => s.getD i '\x00') 1 s.length (by omega)
      rw [hdata] at hwrite
      simp only [OutputOp.step, FILE.fputs, OutputOp.data]
      rw [Nat.mod_eq_of_lt (by omega)]
      exact hwrite
  | fflush => exact ⟨(h.fflush hc).2.2.2, (h.stream_fflush hc).trans (List.append_nil _).symm⟩
  | setvbuf own fresh mallocOk mode size =>
      obtain ⟨hout, hstream⟩ := h.setvbuf hc own fresh mallocOk mode hop hsmall
      exact ⟨hout, hstream.trans (List.append_nil _).symm⟩

theorem FILE.Output.run {sys : Sys} {f : FILE} (h : f.Output) (hc : FILE.CompleteWrites sys) {fuel : ℕ}
    (hfuel : 2 ^ 32 ≤ fuel) {ops : List OutputOp} (hops : ∀ op ∈ ops, op.Allowed ∧ op.Small) :
    (ops.foldl (OutputOp.step sys fuel) f).Output ∧
      (ops.foldl (OutputOp.step sys fuel) f).stream = f.stream ++ ops.flatMap OutputOp.data := by
  induction ops generalizing f with
  | nil => exact ⟨h, (List.append_nil _).symm⟩
  | cons op ops ih =>
      obtain ⟨hop, hsmall⟩ := hops op List.mem_cons_self
      obtain ⟨hout, hstream⟩ := h.step hc hfuel hop hsmall
      obtain ⟨hout', hstream'⟩ := ih hout fun op' hop' => hops op' (List.mem_cons_of_mem _ hop')
      refine ⟨hout', hstream'.trans ?_⟩
      rw [hstream, List.append_assoc, List.flatMap_cons]

/-- **Output loses and reorders nothing where buffers are small:** after any calls, what was sent
and what is buffered are the data of the calls, and behind `fflush` and `fclose` nothing is
buffered. -/
theorem stdio_output_complete (sys : Sys) (hc : FILE.CompleteWrites sys) (fuel : ℕ) (hfuel : 2 ^ 32 ≤ fuel) (f : FILE)
    (hf : f.Opened) (hsize : f.bufsize < 2 ^ 31) (ops : List OutputOp) (hops : ∀ op ∈ ops, op.Allowed)
    (hsmall : ∀ op ∈ ops, op.Small) :
    (ops.foldl (OutputOp.step sys fuel) f).stream = ops.flatMap OutputOp.data ∧
    ((ops.foldl (OutputOp.step sys fuel) f).fflush sys).2.bufpos = 0 ∧
    ((ops.foldl (OutputOp.step sys fuel) f).fclose sys).2.bufpos = 0 ∧
    ((ops.foldl (OutputOp.step sys fuel) f).fclose sys).2.sent = ops.flatMap OutputOp.data := by
  have hout : f.Output := .of_empty hf.bufpos_eq hf.not_reading hf.size_pos hsize
  have hempty : f.stream = [] := by
    rw [FILE.stream, hf.sent_eq, hf.bufpos_eq]
    rfl
  obtain ⟨hrun, hstream⟩ := hout.run hc hfuel fun op hop => ⟨hops op hop, hsmall op hop⟩
  rw [hempty, List.nil_append] at hstream
  obtain ⟨-, hfile, hpos, -⟩ := hrun.fflush hc
  exact ⟨hstream, hpos, hpos, (congrArg Sink.sent hfile).trans hstream⟩

/-- The hypotheses of `stdio_output_complete` are satisfiable: three bytes, a smaller line buffer, and a
line. -/
theorem stdio_output_three_calls : ([.fputc 'a', .fwrite (fun _ => 'b') 2 1,
    .setvbuf true (fun _ => 'y') true .line 2, .fputs ['c', '\n']].foldl
      (OutputOp.step ⟨fun _ => 2 ^ 32, fun _ _ => 'x'⟩ (2 ^ 32)) (FILE.fopen 3 fun _ => 'x')).stream
    = ['a', 'b', 'b', 'c', '\n'] :=
  (stdio_output_complete ⟨fun _ => 2 ^ 32, fun _ _ => 'x'⟩ (fun _ => le_refl _) (2 ^ 32) le_rfl
    (FILE.fopen 3 fun _ => 'x') ⟨rfl, rfl, rfl, rfl, by decide⟩ (by decide) _ (by simp [OutputOp.Allowed])
    (by simp [OutputOp.Small])).1

namespace FILE

variable {sys : Sys} {f : FILE}

theorem put_full (hmode : f.bufmode = .full) (s : CString) : f.put sys s =
    if (f.store s).bufpos = f.bufsize then (f.store s).flushOn sys else (0, f.store s) := by
  unfold FILE.put
  dsimp only
  rw [if_neg (by simp [FILE.store, touch, hmode])]
  rfl

/-- One round is enough for bytes that fit. -/
theorem fwriteLoop_round (sys : Sys) (hmode : f.bufmode ≠ .none) (hlt : f.bufsize < 2 ^ 32) {src : CString}
    (hsrc : src ≠ []) (hfits : f.bufpos + src.length ≤ f.bufsize) (fuel : ℕ) :
    fwriteLoop sys (fuel + 1) src f = ([], (f.put sys src).2) := by
  have hlen : 0 < src.length := List.length_pos_iff.2 hsrc
  have hroom : src.length ≤ f.room := by
    unfold FILE.room
    omega
  unfold FILE.fwriteLoop
  dsimp only
  rw [if_neg hsrc, if_neg hmode, if_neg (by omega), min_eq_left hroom, List.take_length, List.drop_length,
    fwriteLoop_nil, ite_self]

/-- A flush that fails. -/
theorem flushOn_failed (hw : f.writing = true) (hpos : 0 < f.bufpos) (hn : (f.writeBuf sys f.bufpos).1 < 0) :
    f.flushOn sys = (-1, { (f.writeBuf sys f.bufpos).2 with err := true }) := by
  have hflush : f.fflush sys = (-1, { (f.writeBuf sys f.bufpos).2 with err := true }) := by
    unfold FILE.fflush
    rw [if_pos ⟨hw, hpos⟩]
    dsimp only
    rw [if_pos (.inl hn)]
  unfold FILE.flushOn
  rw [hflush]
  rfl

/-- The result of a write of 2 ^ 31 bytes or more is negative. -/
theorem writeBuf_neg (hc : CompleteWrites sys) (f : FILE) {n : ℕ} (hbig : 2 ^ 31 ≤ n) (hlt : n < 2 ^ 32) :
    (f.writeBuf sys n).1 < 0 := by
  have hret := hc (f.touch 0 n).calls
  unfold FILE.writeBuf FILE.sysWrite
  dsimp only
  rw [length_bytes, min_eq_right (by omega), i32_of_overflow (by omega) (by omega)]
  omega

theorem sent_writeBuf (sys : Sys) (f : FILE) (n : ℕ) : (f.writeBuf sys n).2.sent = f.sent ++ f.bytes 0 n := rfl

/-- A round that fills 2 ^ 31 bytes or more: they are sent, but the flush fails. -/
theorem put_overflows (hc : CompleteWrites sys) (hmode : f.bufmode = .full) (hw : f.writing = true)
    (hbig : 2 ^ 31 ≤ f.bufsize) (hlt : f.bufsize < 2 ^ 32) {s : CString}
    (hfills : f.bufpos + s.length = f.bufsize) :
    (f.put sys s).2.stream.length = f.sent.length + 2 * f.bufsize := by
  have hpos : (f.store s).bufpos = f.bufsize := by
    rw [← hfills]
    exact Nat.mod_eq_of_lt (by omega)
  have hn : ((f.store s).writeBuf sys (f.store s).bufpos).1 < 0 := by
    rw [hpos]
    exact writeBuf_neg hc _ hbig hlt
  have hlen : ((f.store s).writeBuf sys (f.store s).bufpos).2.sent.length = f.sent.length + f.bufsize := by
    rw [sent_writeBuf, List.length_append, length_bytes, hpos]
    rfl
  have hkept : ((f.store s).writeBuf sys (f.store s).bufpos).2.bufpos = f.bufsize := hpos
  have hput : f.put sys s = (-1, { ((f.store s).writeBuf sys (f.store s).bufpos).2 with err := true }) := by
    rw [put_full hmode, if_pos hpos]
    exact flushOn_failed hw (by omega) hn
  simp only [hput, stream, List.length_append, length_bytes, hlen, hkept]
  omega

/-- `fwrite` of bytes that fit. -/
theorem fwrite_round (hr : f.reading = false) (hmode : f.bufmode ≠ .none) (hlt : f.bufsize < 2 ^ 32) {n : ℕ}
    (hn : 0 < n) (hfits : f.bufpos + n ≤ f.bufsize) (fuel : ℕ) (src : ℕ → Char) :
    (f.fwrite sys (fuel + 1) src 1 n).2 = (f.startWriting.put sys ((List.range n).map src)).2 := by
  have hsrc : (List.range n).map src ≠ [] := by simp [hn.ne']
  have hround := fwriteLoop_round sys (f := f.startWriting) (by rw [startWriting_eq hr]; exact hmode)
    (by rw [startWriting_eq hr]; exact hlt) hsrc (by rw [startWriting_eq hr]; simpa using hfits) fuel
  unfold FILE.fwrite
  rw [if_neg (by omega), Nat.one_mul, Nat.mod_eq_of_lt (by omega)]
  dsimp only
  rw [hround]

/-- **Two calls that fill the buffer**: what is sent is also kept. -/
theorem length_stream_fills (hc : CompleteWrites sys) (hf : f.Opened) (hmode : f.bufmode = .full) {n : ℕ}
    (hn : 0 < n) (hsize : f.bufsize = n + 1) (hbig : 2 ^ 31 ≤ n + 1) (hlt : n + 1 < 2 ^ 32) {fuel : ℕ}
    (hfuel : fuel ≠ 0) (src : ℕ → Char) (c : Char) :
    (OutputOp.step sys fuel (OutputOp.step sys fuel f (.fwrite src 1 n)) (.fputc c)).stream.length = 2 * (n + 1) := by
  obtain ⟨fuel, rfl⟩ := Nat.exists_eq_succ_of_ne_zero hfuel
  have hpos := hf.bufpos_eq
  have hnone : f.bufmode ≠ .none := by simp [hmode]
  generalize hg : f.startWriting.store ((List.range n).map src) = g
  have hfields : g.bufmode = .full ∧ g.bufsize = n + 1 ∧ g.bufpos = n ∧ g.reading = false ∧ g.sent = [] := by
    rw [← hg, startWriting_eq hf.not_reading]
    refine ⟨hmode, hsize, ?_, hf.not_reading, hf.sent_eq⟩
    simp only [FILE.store, touch, List.length_map, List.length_range, hpos, Nat.zero_add]
    exact Nat.mod_eq_of_lt (by omega)
  obtain ⟨hmode', hsize', hpos', hr', hsent'⟩ := hfields
  have hfirst : OutputOp.step sys fuel.succ f (.fwrite src 1 n) = g := by
    have hfull : f.startWriting.bufmode = .full := by rw [startWriting_eq hf.not_reading]; exact hmode
    have hroom : g.bufpos ≠ f.startWriting.bufsize := by
      rw [startWriting_eq hf.not_reading, hpos']
      change n ≠ f.bufsize
      omega
    simp only [OutputOp.step]
    rw [fwrite_round hf.not_reading hnone (by omega) hn (by omega), put_full hfull, hg, if_neg hroom]
  have hlast := put_overflows (f := g.startWriting) (s := (List.range 1).map fun _ => c) hc
    (by rw [startWriting_eq hr']; exact hmode') (by rw [startWriting_eq hr'])
    (by rw [startWriting_eq hr']; change 2 ^ 31 ≤ g.bufsize; omega)
    (by rw [startWriting_eq hr']; change g.bufsize < 2 ^ 32; omega)
    (by rw [startWriting_eq hr']; change g.bufpos + 1 = g.bufsize; omega)
  rw [hfirst]
  simp only [OutputOp.step, FILE.fputc]
  rw [fwrite_round hr' (by simp [hmode']) (by omega) Nat.one_pos (by omega), hlast, startWriting_eq hr']
  change g.sent.length + 2 * g.bufsize = _
  rw [hsent', hsize', List.length_nil, Nat.zero_add]

end FILE

/-- **A buffer of 2 ^ 31 bytes that gets full** is sent and kept: the two calls write 2 ^ 31 bytes, and
2 ^ 32 are sent or buffered. -/
theorem stdio_sends_twice : ∃ (sys : Sys) (f : FILE) (ops : List OutputOp), FILE.CompleteWrites sys ∧ f.Opened ∧
    (∀ op ∈ ops, op.Allowed) ∧ (ops.flatMap OutputOp.data).length = 2 ^ 31 ∧
    (ops.foldl (OutputOp.step sys (2 ^ 32)) f).stream.length = 2 ^ 32 := by
  -- the sizes are kept as variables, so that no list of that length is ever built
  obtain ⟨n, hn⟩ : ∃ n, n + 1 = 2 ^ 31 := ⟨2 ^ 31 - 1, by decide⟩
  obtain ⟨fuel, hfuel⟩ : ∃ fuel, fuel = 2 ^ 32 := ⟨_, rfl⟩
  let sys : Sys := ⟨fun _ => 2 ^ 32, fun _ _ => 'x'⟩
  let f : FILE := { FILE.fopen 3 fun _ => 'x' with bufsize := n + 1 }
  have hc : FILE.CompleteWrites sys := fun _ => le_refl _
  have hf : f.Opened := ⟨rfl, rfl, rfl, rfl, Nat.le_add_left _ _⟩
  have hfills := FILE.length_stream_fills hc hf rfl (n := n) (by omega) rfl (by omega) (by omega)
    (show fuel ≠ 0 by omega) (fun _ => 'a') 'b'
  rw [← hfuel, ← hn]
  refine ⟨sys, f, [.fwrite (fun _ => 'a') 1 n, .fputc 'b'], hc, hf, ?_, ?_, hfills.trans (by omega)⟩
  · intro op hop
    rcases List.mem_pair.1 hop with rfl | rfl
    · change 1 * n < 2 ^ 31
      omega
    · trivial
  · simp [OutputOp.data]

end LighthOS
