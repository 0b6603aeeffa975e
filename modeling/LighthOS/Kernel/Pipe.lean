/-
# The kernel pipe

`src/kernel/pipe.c`: a pipe is a ring of `PIPE_BUF_SIZE` bytes with a read
position, a write position, a byte count and the numbers of its open read and
write ends.  `pipe_read` and `pipe_write` block cooperatively: where the ring is
empty or full they call `task_yield` and look again when they are scheduled.

A call is therefore a sequence of segments, each from one `task_yield` (or the
entry) to the next (or the return), and nothing else runs inside a segment.
`pipeRead` is a segment of `pipe_read`, which keeps no state over a yield;
`pipeWriteLoop` is a segment of `pipe_write` from `done` bytes on.  The end
counts are natural numbers: they count entries of the `PROCESS_MAX * FD_MAX`
descriptors and stay far below `2^32`.
-/

import LighthOS.Lib.Ring
import Mathlib.Tactic

namespace LighthOS

/-- `PIPE_BUF_SIZE`. -/
abbrev pipeBufSize : ℕ := 4096

/-- `pipe_t`. -/
structure Pipe where
  buf : ℕ → UInt8
  readPos : ℕ
  writePos : ℕ
  count : ℕ
  readers : ℕ
  writers : ℕ

namespace Pipe

/-- The bytes in the ring, in the order they will be read. -/
def buffered (p : Pipe) : List UInt8 := Ring.view pipeBufSize p.buf p.readPos p.count

/-- The positions and the count describe a queue in the ring. -/
structure Valid (p : Pipe) : Prop where
  count_le : p.count ≤ pipeBufSize
  readPos_lt : p.readPos < pipeBufSize
  writePos_eq : p.writePos = (p.readPos + p.count) % pipeBufSize

end Pipe

/-- `pipe_create`: the zeroed pipe. -/
def pipeCreate : Pipe := ⟨fun _ => 0, 0, 0, 0, 0, 0⟩

/-- `pipe_add_reader`. -/
def pipeAddReader (p : Pipe) : Pipe := { p with readers := p.readers + 1 }

/-- `pipe_add_writer`. -/
def pipeAddWriter (p : Pipe) : Pipe := { p with writers := p.writers + 1 }

/-- `pipe_maybe_free`: whether the pipe is freed. -/
def pipeMaybeFree (p : Pipe) : Bool := p.readers == 0 && p.writers == 0

/-- `pipe_close_reader`, before `pipe_maybe_free`: a count of `0` stays `0`. -/
def pipeCloseReader (p : Pipe) : Pipe := { p with readers := p.readers - 1 }

/-- `pipe_close_writer`, before `pipe_maybe_free`. -/
def pipeCloseWriter (p : Pipe) : Pipe := { p with writers := p.writers - 1 }

/-- How a segment of `pipe_read` ends: in `task_yield`, or with the bytes
stored in the caller's buffer, whose number is the value returned. -/
inductive ReadOutcome
  | yield
  | ret (bytes : List UInt8)
  deriving DecidableEq

/-- How a segment of `pipe_write` ends: in `task_yield` with `done` bytes
accepted, or with the value returned. -/
inductive WriteOutcome
  | yield (done : ℕ)
  | ret (r : ℤ)
  deriving DecidableEq

/-- `pipe_read`, from its entry or from its `task_yield` to the next
`task_yield` or to its return. -/
def pipeRead (p : Pipe) (n : ℕ) : ReadOutcome × Pipe :=
  if n = 0 then (.ret [], p)
  else if p.count = 0 ∧ 0 < p.writers then (.yield, p)
  else if p.count = 0 then (.ret [], p)
  else
    let chunk := min n p.count
    let r := Ring.take pipeBufSize p.buf p.readPos chunk
    (.ret r.1, { p with readPos := r.2, count := p.count - chunk })

/-- The loop of `pipe_write` with `done` bytes accepted so far.  Every round
accepts a byte, yields or returns, so that `src.length - done + 1` rounds
suffice (`pipeWriteLoop_spec`). -/
def pipeWriteLoop : ℕ → Pipe → List UInt8 → ℕ → WriteOutcome × Pipe
  | 0, p, _, done => (.yield done, p)
  | fuel + 1, p, src, done =>
      if done < src.length then
        if p.count = pipeBufSize ∧ 0 < p.readers then (.yield done, p)
        else if p.readers = 0 then (.ret (if 0 < done then (done : ℤ) else -1), p)
        else
          let freeSpace := pipeBufSize - p.count
          let chunk := min (src.length - done) freeSpace
          let w := Ring.put pipeBufSize p.buf p.writePos ((src.drop done).take chunk)
          pipeWriteLoop fuel { p with buf := w.1, writePos := w.2, count := p.count + chunk } src
            (done + chunk)
      else (.ret done, p)

/-- A segment of `pipe_write` after a `task_yield`. -/
def pipeWriteResume (p : Pipe) (src : List UInt8) (done : ℕ) : WriteOutcome × Pipe :=
  pipeWriteLoop (src.length - done + 1) p src done

/-- `pipe_write`, from its entry to its first `task_yield` or to its return. -/
def pipeWrite (p : Pipe) (src : List UInt8) : WriteOutcome × Pipe :=
  if src.length = 0 then (.ret 0, p)
  else if p.readers = 0 then (.ret (-1), p)
  else pipeWriteResume p src 0

/-! ### What a segment does -/

variable {p p' : Pipe} {src : List UInt8} {done : ℕ} {o : WriteOutcome}

/-- **A segment of `pipe_read`** keeps the ring valid, leaves the ends alone and
takes what it returns from the front of the queue. -/
theorem pipeRead_spec (hp : p.Valid) (n : ℕ) : (pipeRead p n).2.Valid ∧ (pipeRead p n).2.readers = p.readers ∧
      (pipeRead p n).2.writers = p.writers ∧
      match (pipeRead p n).1 with
      | .yield => (pipeRead p n).2 = p ∧ n ≠ 0
      | .ret bytes => p.buffered = bytes ++ (pipeRead p n).2.buffered ∧ bytes.length ≤ n ∧
          (bytes = [] → 0 < n → p.count = 0 ∧ p.writers = 0) := by
  have hr := hp.readPos_lt
  unfold pipeRead
  split_ifs with h₁ h₂ h₃
  · exact ⟨hp, rfl, rfl, rfl, Nat.zero_le _, fun _ h => absurd h₁ (by omega)⟩
  · exact ⟨hp, rfl, rfl, rfl, h₁⟩
  · exact ⟨hp, rfl, rfl, rfl, Nat.zero_le _, fun _ _ => ⟨h₃, by omega⟩⟩
  · simp only [Ring.take_fst _ _ hr, Ring.take_snd _ _ hr, Pipe.buffered]
    generalize hc : min n p.count = c
    have hcn : c ≤ p.count ∧ c ≤ n ∧ 0 < c := by omega
    refine ⟨⟨le_trans (Nat.sub_le _ _) hp.count_le, Nat.mod_lt _ (by norm_num), ?_⟩, trivial, trivial,
      ?_, ?_, ?_⟩
    · rw [hp.writePos_eq, Nat.mod_add_mod, Nat.add_assoc, Nat.add_sub_cancel' hcn.1]
    · rw [← Ring.view_add, Nat.add_sub_cancel' hcn.1]
    · simpa using hcn.2.1
    · intro h
      have := congrArg List.length h
      simp only [Ring.length_view, List.length_nil] at this
      omega

/-- A segment of `pipe_read` that waits. -/
theorem pipeRead_yield {n : ℕ} (h : (pipeRead p n).1 = .yield) :
    (pipeRead p n).2 = p ∧ p.count = 0 ∧ 0 < p.writers := by
  unfold pipeRead at h ⊢
  split_ifs at h ⊢ with h₁ h₂
  exact ⟨rfl, h₂⟩

/-- One round of the loop of `pipe_write`: storing `xs` where the ring has room
appends it to the queue. -/
theorem Pipe.Valid.put (hp : p.Valid) (xs : List UInt8) (hroom : p.count + xs.length ≤ pipeBufSize)
    (h : p' = { p with buf := (Ring.put pipeBufSize p.buf p.writePos xs).1,
                       writePos := (Ring.put pipeBufSize p.buf p.writePos xs).2,
                       count := p.count + xs.length }) :
    p'.Valid ∧ p'.buffered = p.buffered ++ xs := by
  subst h
  have hw : p.writePos < pipeBufSize := by rw [hp.writePos_eq]; exact Nat.mod_lt _ (by norm_num)
  refine ⟨⟨hroom, hp.readPos_lt, ?_⟩, ?_⟩
  · simp only [Ring.put_snd _ _ hw]
    rw [hp.writePos_eq, Nat.mod_add_mod, Nat.add_assoc]
  · simp only [Pipe.buffered, hp.writePos_eq]
    exact Ring.view_put _ _ _ _ hroom

/-- What a segment of `pipe_write` leaves behind when it starts with `done` bytes
accepted: it accepts the next bytes of `src` in order, as many as the count
grows by, and its outcome is the number accepted so far, which is all of them or there is
no reader, or `-1` where none of a nonempty `src` was accepted and there is no reader. -/
structure WriteSpec (p : Pipe) (src : List UInt8) (done : ℕ) (o : WriteOutcome) (p' : Pipe) :
    Prop where
  valid : p'.Valid
  readers : p'.readers = p.readers
  writers : p'.writers = p.writers
  count_le : p.count ≤ p'.count
  accepted_le : done + (p'.count - p.count) ≤ src.length
  buffered : p'.buffered = p.buffered ++ (src.drop done).take (p'.count - p.count)
  outcome : match o with
    | .yield d => d = done + (p'.count - p.count) ∧ d < src.length ∧ p'.count = pipeBufSize ∧
        0 < p.readers
    | .ret r => r = (done + (p'.count - p.count) : ℕ) ∧ (done + (p'.count - p.count) = src.length ∨
          0 < done + (p'.count - p.count) ∧ p.readers = 0) ∨
        r = -1 ∧ done + (p'.count - p.count) = 0 ∧ p.readers = 0 ∧ src ≠ []

/-- A segment of `pipe_write` that waits. -/
theorem WriteSpec.full {d : ℕ} (h : WriteSpec p src done o p') (ho : o = .yield d) :
    p'.count = pipeBufSize ∧ 0 < p'.readers := by
  have hout := h.outcome
  rw [ho] at hout
  exact ⟨hout.2.2.1, h.readers ▸ hout.2.2.2⟩

/-- A segment of `pipe_write` at an empty ring with a reader. -/
theorem WriteSpec.accepts (h : WriteSpec p src done o p') (hcount : p.count = 0) (hreaders : p.readers ≠ 0)
    (hdone : done < src.length) : 0 < p'.count := by
  have hout := h.outcome
  cases o with
  | yield d => exact hout.2.2.1 ▸ Nat.zero_lt_succ _
  | ret r => rcases hout with ⟨-, hall | hnone⟩ | hnone <;> omega

/-- Stopping before the next byte is accepting none. -/
theorem WriteSpec.stop (hp : p.Valid) (hdone : done ≤ src.length)
    (ho : match o with
      | .yield d => d = done ∧ d < src.length ∧ p.count = pipeBufSize ∧ 0 < p.readers
      | .ret r => r = (done : ℕ) ∧ (done = src.length ∨ 0 < done ∧ p.readers = 0) ∨
          r = -1 ∧ done = 0 ∧ p.readers = 0 ∧ src ≠ []) :
    WriteSpec p src done o p := by
  refine ⟨hp, rfl, rfl, le_rfl, by omega, by simp, ?_⟩
  rw [Nat.sub_self, Nat.add_zero]
  exact ho

/-- Accepting `chunk` bytes and going on is accepting the bytes of both. -/
theorem WriteSpec.cons {p₁ : Pipe} {chunk : ℕ} (hbuf : p₁.buffered = p.buffered ++ (src.drop done).take chunk)
    (hcount : p₁.count = p.count + chunk) (hreaders : p₁.readers = p.readers)
    (hwriters : p₁.writers = p.writers) (h : WriteSpec p₁ src (done + chunk) o p') :
    WriteSpec p src done o p' := by
  have hle := h.count_le
  have hsum : p'.count - p.count = chunk + (p'.count - p₁.count) := by omega
  have hdone : done + (p'.count - p.count) = done + chunk + (p'.count - p₁.count) := by omega
  refine ⟨h.valid, h.readers.trans hreaders, h.writers.trans hwriters, by omega,
    hdone ▸ h.accepted_le, ?_, ?_⟩
  · rw [h.buffered, hbuf, hsum, List.append_assoc, List.take_add, List.drop_drop]
  · have ho := h.outcome
    rw [← hdone, hreaders] at ho
    exact ho

/-- **The loop of `pipe_write`**, started with a byte to go and fuel for it. -/
theorem pipeWriteLoop_spec {fuel : ℕ} (hp : p.Valid) (hdone : done < src.length) (hfuel : src.length - done < fuel) :
    WriteSpec p src done (pipeWriteLoop fuel p src done).1 (pipeWriteLoop fuel p src done).2 := by
  induction fuel generalizing p done with
  | zero => omega
  | succ fuel ih =>
      have hcount := hp.count_le
      rw [pipeWriteLoop, if_pos hdone]
      split_ifs with h₁ h₂ h₃
      · exact .stop hp hdone.le ⟨rfl, hdone, h₁⟩
      · exact .stop hp hdone.le (Or.inl ⟨rfl, Or.inr ⟨h₃, h₂⟩⟩)
      · exact .stop hp hdone.le (Or.inr ⟨rfl, by omega, h₂, List.ne_nil_of_length_pos (by omega)⟩)
      · -- the ring has room and a byte is left, so that the chunk is not empty
        simp only
        generalize hc : min (src.length - done) (pipeBufSize - p.count) = chunk
        have hlen : ((src.drop done).take chunk).length = chunk := by
          rw [List.length_take, List.length_drop]; omega
        generalize hp₁ : ({ p with
          buf := (Ring.put pipeBufSize p.buf p.writePos ((src.drop done).take chunk)).1,
          writePos := (Ring.put pipeBufSize p.buf p.writePos ((src.drop done).take chunk)).2,
          count := p.count + chunk } : Pipe) = p₁
        obtain ⟨hv, hb⟩ := hp.put ((src.drop done).take chunk) (by omega)
          (show p₁ = _ by rw [← hp₁, hlen])
        rcases Nat.lt_or_ge (done + chunk) src.length with h | h
        · exact .cons hb (by rw [← hp₁]) (by rw [← hp₁]) (by rw [← hp₁]) (ih hv h (by omega))
        · -- every byte is accepted: the next round returns
          have hret : pipeWriteLoop fuel p₁ src (done + chunk) = (.ret (done + chunk : ℕ), p₁) := by
            obtain ⟨fuel, rfl⟩ := Nat.exists_eq_succ_of_ne_zero (show fuel ≠ 0 by omega)
            rw [pipeWriteLoop, if_neg (by omega)]
          rw [hret]
          exact .cons hb (by rw [← hp₁]) (by rw [← hp₁]) (by rw [← hp₁])
            (.stop hv (by omega) (Or.inl ⟨rfl, Or.inl (by omega)⟩))

/-- A segment of `pipe_write` after a `task_yield`. -/
theorem pipeWriteResume_spec (hp : p.Valid) (hdone : done < src.length) :
    WriteSpec p src done (pipeWriteResume p src done).1 (pipeWriteResume p src done).2 :=
  pipeWriteLoop_spec hp hdone (by omega)

/-- The first segment of `pipe_write`. -/
theorem pipeWrite_spec (hp : p.Valid) (src : List UInt8) :
    WriteSpec p src 0 (pipeWrite p src).1 (pipeWrite p src).2 := by
  unfold pipeWrite
  split_ifs with h₁ h₂
  · exact .stop hp (Nat.zero_le _) (Or.inl ⟨rfl, Or.inl h₁.symm⟩)
  · exact .stop hp (Nat.zero_le _)
      (Or.inr ⟨rfl, rfl, h₂, fun h => h₁ (List.length_eq_zero_iff.2 h)⟩)
  · exact pipeWriteResume_spec hp (by omega)

end LighthOS
