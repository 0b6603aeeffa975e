/-
# A pipe is a lossless queue, whatever the schedule

The processes of `pipeSystem` share one pipe.  Each holds some of its ends, one
per descriptor entry, and is outside the pipe or inside one call, waiting at the
call's `task_yield`.  A step opens an end (`fork` and `fd_dup2` copy one that
exists), closes an end of a process that is in no call, or runs one segment of a
call (`Kernel.Pipe`).  Any process may step next, so that the runs of the system
are all interleavings of all calls at their yield points.

Two histories record what the calls did: `accepted`, the bytes that `pipe_write`
calls put into the ring, each with the number of its call, and `returned`, the
bytes that `pipe_read` calls took out.  `PipeInv` is what every step keeps.
-/

import LighthOS.Lib.System
import LighthOS.Kernel.Pipe

namespace LighthOS

/-- What a process is doing with the pipe. -/
inductive PipeCall
  | idle
  | reading (n : ℕ)
  | writing (id : ℕ) (src : List UInt8) (done : ℕ)
  deriving DecidableEq

/-- A pipe, its open ends by owning process, the calls inside it and the
histories of the bytes. -/
structure PipeState where
  pipe : Pipe
  readEnds : List ℕ
  writeEnds : List ℕ
  call : ℕ → PipeCall
  nextCall : ℕ
  accepted : List (ℕ × UInt8)
  returned : List UInt8

namespace PipeState

/-- The bytes that the `pipe_write` call `id` had accepted, in order. -/
def acceptedBy (s : PipeState) (id : ℕ) : List UInt8 :=
  (s.accepted.filter fun b => b.1 == id).map Prod.snd

/-- After a segment of `pipe_read` by process `q`. -/
def afterRead (s : PipeState) (q n : ℕ) : PipeState :=
  { s with
    pipe := (pipeRead s.pipe n).2
    call := Function.update s.call q
      (match (pipeRead s.pipe n).1 with | .yield => .reading n | .ret _ => .idle)
    returned := s.returned ++
      (match (pipeRead s.pipe n).1 with | .yield => [] | .ret bytes => bytes) }

/-- After a segment of the `pipe_write` call `id` of process `q` that started
with `done` bytes accepted and ended as `r` says. -/
def afterWrite (s : PipeState) (q id : ℕ) (src : List UInt8) (done : ℕ) (r : WriteOutcome × Pipe) :
    PipeState :=
  { s with
    pipe := r.2
    call := Function.update s.call q
      (match r.1 with | .yield d => .writing id src d | .ret _ => .idle)
    accepted := s.accepted ++
      ((src.drop done).take (r.2.count - s.pipe.count)).map fun b => (id, b) }

end PipeState

/-- What a step does.  A segment is labelled with its call and how it ends. -/
inductive PipeLabel
  | openReader (q : ℕ)
  | openWriter (q : ℕ)
  | closeReader (q : ℕ)
  | closeWriter (q : ℕ)
  | read (q n : ℕ) (o : ReadOutcome)
  | write (q id : ℕ) (src : List UInt8) (o : WriteOutcome)

/-- The steps of the processes sharing the pipe. -/
inductive PipeStep : PipeState → PipeLabel → PipeState → Prop
  | openReader {s : PipeState} (q : ℕ) (h : s.readEnds ≠ []) :
      PipeStep s (.openReader q)
        { s with pipe := pipeAddReader s.pipe, readEnds := q :: s.readEnds }
  | openWriter {s : PipeState} (q : ℕ) (h : s.writeEnds ≠ []) :
      PipeStep s (.openWriter q)
        { s with pipe := pipeAddWriter s.pipe, writeEnds := q :: s.writeEnds }
  | closeReader {s : PipeState} (q : ℕ) (h : q ∈ s.readEnds) (hq : s.call q = .idle) :
      PipeStep s (.closeReader q)
        { s with pipe := pipeCloseReader s.pipe, readEnds := s.readEnds.erase q }
  | closeWriter {s : PipeState} (q : ℕ) (h : q ∈ s.writeEnds) (hq : s.call q = .idle) :
      PipeStep s (.closeWriter q)
        { s with pipe := pipeCloseWriter s.pipe, writeEnds := s.writeEnds.erase q }
  | enterRead {s : PipeState} (q n : ℕ) (h : q ∈ s.readEnds) (hq : s.call q = .idle) :
      PipeStep s (.read q n (pipeRead s.pipe n).1) (s.afterRead q n)
  | resumeRead {s : PipeState} (q n : ℕ) (hq : s.call q = .reading n) :
      PipeStep s (.read q n (pipeRead s.pipe n).1) (s.afterRead q n)
  | enterWrite {s : PipeState} (q : ℕ) (src : List UInt8) (h : q ∈ s.writeEnds)
      (hq : s.call q = .idle) :
      PipeStep s (.write q s.nextCall src (pipeWrite s.pipe src).1)
        { s.afterWrite q s.nextCall src 0 (pipeWrite s.pipe src) with nextCall := s.nextCall + 1 }
  | resumeWrite {s : PipeState} (q id : ℕ) (src : List UInt8) (done : ℕ)
      (hq : s.call q = .writing id src done) :
      PipeStep s (.write q id src (pipeWriteResume s.pipe src done).1)
        (s.afterWrite q id src done (pipeWriteResume s.pipe src done))

/-- The pipe right after `fd_pipe` by process `q`: `pipe_create`, one read end
and one write end. -/
def pipeStart (q : ℕ) : PipeState where
  pipe := pipeAddWriter (pipeAddReader pipeCreate)
  readEnds := [q]
  writeEnds := [q]
  call _ := .idle
  nextCall := 0
  accepted := []
  returned := []

/-- All runs of processes on one pipe. -/
def pipeSystem : System PipeState PipeLabel where
  init s := ∃ q, s = pipeStart q
  step := PipeStep

/-- What every step keeps: the ring is valid, the counts are the numbers of
ends, the bytes taken out followed by the bytes in the ring are the bytes put
in, and every call inside the pipe holds its end and knows what it has had
accepted. -/
structure PipeInv (s : PipeState) : Prop where
  valid : s.pipe.Valid
  readers : s.pipe.readers = s.readEnds.length
  writers : s.pipe.writers = s.writeEnds.length
  fifo : s.returned ++ s.pipe.buffered = s.accepted.map Prod.snd
  reading : ∀ q n, s.call q = .reading n → q ∈ s.readEnds
  writing : ∀ q id src done, s.call q = .writing id src done →
    q ∈ s.writeEnds ∧ id < s.nextCall ∧ done < src.length ∧ s.acceptedBy id = src.take done
  distinct : ∀ q q' id src src' done done', s.call q = .writing id src done →
    s.call q' = .writing id src' done' → q = q'
  ids : ∀ b ∈ s.accepted, b.1 < s.nextCall

theorem pipeInv_start (q : ℕ) : PipeInv (pipeStart q) where
  valid := ⟨Nat.zero_le _, Nat.zero_lt_succ _, rfl⟩
  readers := rfl
  writers := rfl
  fifo := rfl
  reading _ _ h := by cases h
  writing _ _ _ _ h := by cases h
  distinct _ _ _ _ _ _ _ h := by cases h
  ids _ h := by cases h

/-- The bytes of call `id` after `xs` more were accepted from call `id'`. -/
theorem acceptedBy_append (s : PipeState) (id id' : ℕ) (xs : List UInt8) :
    ((s.accepted ++ xs.map fun b => (id', b)).filter fun b => b.1 == id).map Prod.snd
      = s.acceptedBy id ++ if id' = id then xs else [] := by
  rw [List.filter_append, List.map_append, PipeState.acceptedBy]
  congr 1
  split_ifs with h
  · rw [h, List.filter_eq_self.2 (by simp), List.map_map]
    simp [Function.comp_def]
  · simp [h]

variable {s : PipeState}

/-- A call number that is not handed out yet has no bytes. -/
theorem PipeInv.acceptedBy_nextCall (h : PipeInv s) :
    s.acceptedBy s.nextCall = [] := by
  rw [PipeState.acceptedBy, List.map_eq_nil_iff, List.filter_eq_nil_iff]
  intro b hb he
  exact absurd (h.ids b hb) (by rw [beq_iff_eq.1 he]; exact lt_irrefl _)

/-- Changing the ends of processes that are in no call keeps the invariant. -/
theorem PipeInv.setEnds (h : PipeInv s) {p : Pipe} {rs ws : List ℕ}
    (hbuf : p.buf = s.pipe.buf) (hrp : p.readPos = s.pipe.readPos)
    (hwp : p.writePos = s.pipe.writePos) (hc : p.count = s.pipe.count) (hr : p.readers = rs.length)
    (hw : p.writers = ws.length) (hrs : ∀ q, s.call q ≠ .idle → q ∈ s.readEnds → q ∈ rs)
    (hws : ∀ q, s.call q ≠ .idle → q ∈ s.writeEnds → q ∈ ws) :
    PipeInv { s with pipe := p, readEnds := rs, writeEnds := ws } where
  valid := ⟨hc ▸ h.valid.count_le, hrp ▸ h.valid.readPos_lt,
    by rw [hwp, hrp, hc]; exact h.valid.writePos_eq⟩
  readers := hr
  writers := hw
  fifo := by
    have : p.buffered = s.pipe.buffered := by rw [Pipe.buffered, Pipe.buffered, hbuf, hrp, hc]
    simpa only [this] using h.fifo
  reading q n hq := hrs q (by simp only [ne_eq]; rw [show s.call q = _ from hq]; simp) (h.reading q n hq)
  writing q id src done hq := by
    obtain ⟨h₁, h₂, h₃, h₄⟩ := h.writing q id src done hq
    exact ⟨hws q (by rw [show s.call q = _ from hq]; simp) h₁, h₂, h₃, h₄⟩
  distinct := h.distinct
  ids := h.ids

/-- A segment of `pipe_read` keeps the invariant. -/
theorem PipeInv.read (h : PipeInv s) {q n : ℕ} (hq : q ∈ s.readEnds) :
    PipeInv (s.afterRead q n) := by
  obtain ⟨hv, hr, hw, ho⟩ := pipeRead_spec h.valid n
  refine ⟨hv, hr.trans h.readers, hw.trans h.writers, ?_, fun q' n' hq' => ?_,
    fun q' id src done hq' => ?_, fun q₁ q₂ id src src' done done' h₁ h₂ => ?_, h.ids⟩
  · simp only [PipeState.afterRead]
    cases heq : (pipeRead s.pipe n).1 with
    | yield => rw [heq] at ho; simpa [ho.1] using h.fifo
    | ret bytes =>
        rw [heq] at ho
        simp only at ho ⊢
        rw [List.append_assoc, ← ho.1, h.fifo]
  all_goals simp only [PipeState.afterRead, Function.update_apply] at *
  · split_ifs at hq' with he
    · exact he ▸ hq
    · exact h.reading q' n' hq'
  · split_ifs at hq' with he
    · split at hq' <;> cases hq'
    · exact h.writing q' id src done hq'
  · split_ifs at h₁ h₂ with he₁ he₂
    all_goals first
      | (split at h₁ <;> cases h₁)
      | (split at h₂ <;> cases h₂)
      | exact h.distinct q₁ q₂ id src src' done done' h₁ h₂

/-- What the call `id` has had accepted after one more segment. -/
theorem acceptedBy_afterWrite {q id done N : ℕ} {src : List UInt8}
    {r : WriteOutcome × Pipe} (hacc : s.acceptedBy id = src.take done) :
    PipeState.acceptedBy { s.afterWrite q id src done r with nextCall := N } id
      = src.take (done + (r.2.count - s.pipe.count)) := by
  rw [PipeState.acceptedBy, List.take_add, ← hacc]
  exact (acceptedBy_append s id id _).trans (by rw [if_pos rfl])

/-- A segment of `pipe_write` keeps the invariant.  `N` is the next call number
afterwards. -/
theorem PipeInv.write (h : PipeInv s) {q id done N : ℕ} {src : List UInt8}
    {r : WriteOutcome × Pipe} (hr : WriteSpec s.pipe src done r.1 r.2) (hq : q ∈ s.writeEnds)
    (hacc : s.acceptedBy id = src.take done) (hid : id < N) (hN : s.nextCall ≤ N)
    (hother : ∀ q' src' done', s.call q' = .writing id src' done' → q' = q) :
    PipeInv { s.afterWrite q id src done r with nextCall := N } := by
  refine ⟨hr.valid, hr.readers.trans h.readers, hr.writers.trans h.writers, ?_, ?_, ?_, ?_, ?_⟩
  · simp only [PipeState.afterWrite, List.map_append, List.map_map, Function.comp_def, List.map_id']
    rw [hr.buffered, ← List.append_assoc, h.fifo]
  · intro q' n hq'
    simp only [PipeState.afterWrite, Function.update_apply] at hq' ⊢
    split_ifs at hq' with he
    · split at hq' <;> cases hq'
    · exact h.reading q' n hq'
  · intro q' id' src' done' hq'
    simp only [PipeState.afterWrite, Function.update_apply] at hq'
    split_ifs at hq' with he
    · -- the call itself, waiting at its next yield
      split at hq'
      · rename_i d heq
        cases hq'
        have ho := hr.outcome
        rw [heq] at ho
        exact ⟨he ▸ hq, hid, ho.2.1, by rw [acceptedBy_afterWrite hacc, ho.1]⟩
      · cases hq'
    · -- another call, whose bytes carry another number
      obtain ⟨h₁, h₂, h₃, h₄⟩ := h.writing q' id' src' done' hq'
      have hne : id ≠ id' := fun hii => he (hother q' src' done' (hii ▸ hq'))
      refine ⟨h₁, lt_of_lt_of_le h₂ hN, h₃, ?_⟩
      exact (acceptedBy_append s id' id _).trans (by rw [if_neg hne, List.append_nil, h₄])
  · intro q₁ q₂ id' src₁ src₂ done₁ done₂ h₁ h₂
    simp only [PipeState.afterWrite, Function.update_apply] at h₁ h₂
    have hcase : ∀ q' src' done', (if q' = q then
        (match r.1 with | .yield d => PipeCall.writing id src d | .ret _ => .idle) else s.call q')
          = .writing id' src' done' → id' = id → q' = q := by
      intro q' src' done' hq' hii
      by_contra hne
      rw [if_neg hne] at hq'
      exact hne (hother q' src' done' (hii ▸ hq'))
    by_cases hii : id' = id
    · rw [hcase q₁ _ _ h₁ hii, hcase q₂ _ _ h₂ hii]
    · split_ifs at h₁ h₂ with he₁ he₂ he₂
      · rw [he₁, he₂]
      · split at h₁ <;> cases h₁
        exact absurd rfl hii
      · split at h₂ <;> cases h₂
        exact absurd rfl hii
      · exact h.distinct q₁ q₂ id' src₁ src₂ done₁ done₂ h₁ h₂
  · intro b hb
    simp only [PipeState.afterWrite, List.mem_append, List.mem_map] at hb
    rcases hb with hb | ⟨x, -, rfl⟩
    · exact lt_of_lt_of_le (h.ids b hb) hN
    · exact hid

/-- **Every step keeps the invariant.** -/
theorem PipeInv.step {s s' : PipeState} {l : PipeLabel} (h : PipeInv s) (hs : PipeStep s l s') :
    PipeInv s' := by
  cases hs with
  | openReader q hne =>
      exact h.setEnds rfl rfl rfl rfl (by simp [pipeAddReader, h.readers])
        (by simp [pipeAddReader, h.writers]) (fun _ _ hq => List.mem_cons_of_mem _ hq)
        (fun _ _ hq => hq)
  | openWriter q hne =>
      exact h.setEnds rfl rfl rfl rfl (by simp [pipeAddWriter, h.readers])
        (by simp [pipeAddWriter, h.writers]) (fun _ _ hq => hq)
        (fun _ _ hq => List.mem_cons_of_mem _ hq)
  | closeReader q hq hi =>
      refine h.setEnds rfl rfl rfl rfl ?_ (by simp [pipeCloseReader, h.writers])
        (fun q' hne hq' => ?_) (fun _ _ hq => hq)
      · simp [pipeCloseReader, h.readers, List.length_erase_of_mem hq]
      · exact (List.mem_erase_of_ne fun he : q' = q => hne (he ▸ hi)).2 hq'
  | closeWriter q hq hi =>
      refine h.setEnds rfl rfl rfl rfl (by simp [pipeCloseWriter, h.readers]) ?_
        (fun _ _ hq => hq) (fun q' hne hq' => ?_)
      · simp [pipeCloseWriter, h.writers, List.length_erase_of_mem hq]
      · exact (List.mem_erase_of_ne fun he : q' = q => hne (he ▸ hi)).2 hq'
  | enterRead q n hq hi => exact h.read hq
  | resumeRead q n hi => exact h.read (h.reading q n hi)
  | enterWrite q src hq hi =>
      refine h.write (pipeWrite_spec h.valid src) hq ?_ (Nat.lt_succ_self _) (Nat.le_succ _) ?_
      · rw [h.acceptedBy_nextCall, List.take_zero]
      · intro q' src' done' hq'
        exact absurd (h.writing q' _ _ _ hq').2.1 (lt_irrefl _)
  | resumeWrite q id src done hi =>
      obtain ⟨h₁, h₂, h₃, h₄⟩ := h.writing q id src done hi
      exact h.write (pipeWriteResume_spec h.valid h₃) h₁ h₄ h₂ le_rfl
        fun q' src' done' hq' => h.distinct _ _ _ _ _ _ _ hq' hi

theorem pipeInv_of_reaches (hr : pipeSystem.Reaches s) : PipeInv s :=
  hr.invariant (fun _ ⟨q, hq⟩ => hq ▸ pipeInv_start q) fun _ _ _ h hs => h.step hs

/-- What the return of a `pipe_write` call means: `r` is the number of its bytes
that were accepted, or `-1`, and it is `-1` exactly where none of a nonempty
buffer was accepted and the pipe has no reader. -/
theorem write_return {q id done N : ℕ} {src : List UInt8} {r : ℤ}
    {w : WriteOutcome × Pipe} (hw : WriteSpec s.pipe src done w.1 w.2) (hr : w.1 = .ret r)
    (hacc : s.acceptedBy id = src.take done) :
    let bytes := PipeState.acceptedBy { s.afterWrite q id src done w with nextCall := N } id
    bytes = src.take bytes.length ∧ (r = bytes.length ∨ r = -1) ∧
      (r = -1 ↔ src ≠ [] ∧ bytes = [] ∧ s.pipe.readers = 0) := by
  have hlen := hw.accepted_le
  have ho := hw.outcome
  rw [hr] at ho
  simp only [acceptedBy_afterWrite hacc, List.length_take, Nat.min_eq_left hlen]
  generalize done + (w.2.count - s.pipe.count) = k at ho hlen
  refine ⟨trivial, ?_⟩
  rcases ho with ⟨rfl, hk⟩ | ⟨rfl, rfl, hrd, hsrc⟩
  · refine ⟨Or.inl rfl, fun h => by omega, ?_⟩
    rintro ⟨h₁, h₂, -⟩
    have hpos := List.length_pos_of_ne_nil h₁
    rcases List.take_eq_nil_iff.1 h₂ with h₂ | h₂
    · omega
    · exact absurd h₂ h₁
  · exact ⟨Or.inr rfl, fun _ => ⟨hsrc, List.take_zero, hrd⟩, fun _ => rfl⟩

/-- **A pipe is a lossless queue under any interleaving.**  In every state that
the processes reach, the ring is a queue of at most `PIPE_BUF_SIZE` bytes, and
the bytes returned by `pipe_read` calls followed by the bytes in the ring are
the bytes accepted by `pipe_write` calls, in order.  In every step from such a
state that ends a `pipe_write` call, the value returned is the number of its
bytes accepted, a prefix of its buffer, or `-1`, which it is exactly where none
of `n > 0` bytes was accepted and the pipe has no reader; and a `pipe_read` of
`n > 0` bytes returns none only with the ring empty and no writer. -/
theorem pipe_lossless_fifo {s : PipeState} (hs : pipeSystem.Reaches s) :
    s.pipe.count ≤ pipeBufSize ∧
    s.pipe.writePos = (s.pipe.readPos + s.pipe.count) % pipeBufSize ∧
    s.returned ++ s.pipe.buffered = s.accepted.map Prod.snd ∧
    (∀ q id src r s', PipeStep s (.write q id src (.ret r)) s' →
      s'.acceptedBy id = src.take (s'.acceptedBy id).length ∧
      (r = (s'.acceptedBy id).length ∨ r = -1) ∧
      (r = -1 ↔ src ≠ [] ∧ s'.acceptedBy id = [] ∧ s.pipe.readers = 0)) ∧
    (∀ q n s', PipeStep s (.read q n (.ret [])) s' → 0 < n →
      s.pipe.count = 0 ∧ s.pipe.writers = 0) := by
  have h := pipeInv_of_reaches hs
  refine ⟨h.valid.count_le, h.valid.writePos_eq, h.fifo, ?_, ?_⟩
  · intro q id src r s' hstep
    generalize hl : PipeLabel.write q id src (.ret r) = l at hstep
    cases hstep with
    | enterWrite q' src' hq hi =>
        obtain ⟨rfl, rfl, rfl, hout⟩ := PipeLabel.write.inj hl
        exact write_return (pipeWrite_spec h.valid src) hout.symm
          (by rw [h.acceptedBy_nextCall, List.take_zero])
    | resumeWrite q' id' src' done hi =>
        obtain ⟨rfl, rfl, rfl, hout⟩ := PipeLabel.write.inj hl
        obtain ⟨-, -, hdone, hacc⟩ := h.writing q id src done hi
        exact write_return (pipeWriteResume_spec h.valid hdone) hout.symm hacc
    | _ => cases hl
  · intro q n s' hstep hn
    have hspec := (pipeRead_spec h.valid n).2.2.2
    generalize hl : PipeLabel.read q n (.ret []) = l at hstep
    cases hstep with
    | enterRead q' n' hq hi | resumeRead q' n' hi =>
        obtain ⟨rfl, rfl, hout⟩ := PipeLabel.read.inj hl
        rw [← hout] at hspec
        exact hspec.2.2 rfl hn
    | _ => cases hl

/-- The hypothesis of `pipe_lossless_fifo` is satisfiable beyond the new pipe:
process `0` writes two bytes, and they are in the ring. -/
theorem pipe_lossless_fifo_write :
    ∃ s, pipeSystem.Reaches s ∧ s.accepted.map Prod.snd = [7, 8] ∧
      s.returned ++ s.pipe.buffered = [7, 8] := by
  have hs : pipeSystem.Reaches _ :=
    .step (.init ⟨0, rfl⟩) (PipeStep.enterWrite (s := pipeStart 0) 0 [7, 8] (by simp [pipeStart]) rfl)
  exact ⟨_, hs, by decide, (pipe_lossless_fifo hs).2.2.1.trans (by decide)⟩

/-- **Whoever waits in a pipe lets the other side go on.**  A `pipe_read` goes to wait only at an empty ring
with a write end open, and then every `pipe_write`, new or resumed, puts bytes into the ring; a `pipe_write`
goes to wait only at a full ring with a read end open, and then every `pipe_read` takes bytes. -/
theorem pipe_progress {s : PipeState} (hs : pipeSystem.Reaches s) :
    (∀ q n s', PipeStep s (.read q n .yield) s' → s'.pipe.count = 0 ∧ s'.writeEnds ≠ [] ∧
      (∀ src, src ≠ [] → 0 < (pipeWrite s'.pipe src).2.count) ∧
      ∀ q' id src done, s'.call q' = .writing id src done → 0 < (pipeWriteResume s'.pipe src done).2.count) ∧
    ∀ q id src d s', PipeStep s (.write q id src (.yield d)) s' → s'.pipe.count = pipeBufSize ∧
      s'.readEnds ≠ [] ∧ ∀ n, 0 < n → ∃ bytes, bytes ≠ [] ∧ (pipeRead s'.pipe n).1 = .ret bytes := by
  have h := pipeInv_of_reaches hs
  refine ⟨fun q n s' hstep => ?_, fun q id src d s' hstep => ?_⟩
  · have h' := h.step hstep
    obtain ⟨hq, hsame, hcount, hwriters⟩ : q ∈ s'.readEnds ∧ s'.pipe = s.pipe ∧ s.pipe.count = 0 ∧
        0 < s.pipe.writers := by
      generalize hl : PipeLabel.read q n .yield = l at hstep
      cases hstep with
      | enterRead q' n' hq hi =>
          obtain ⟨rfl, rfl, hout⟩ := PipeLabel.read.inj hl
          exact ⟨hq, pipeRead_yield hout.symm⟩
      | resumeRead q' n' hi =>
          obtain ⟨rfl, rfl, hout⟩ := PipeLabel.read.inj hl
          exact ⟨h.reading q n hi, pipeRead_yield hout.symm⟩
      | _ => cases hl
    rw [← hsame] at hcount hwriters
    have hreaders : s'.pipe.readers ≠ 0 := by
      rw [h'.readers]
      exact (List.length_pos_of_mem hq).ne'
    refine ⟨hcount, List.ne_nil_of_length_pos (h'.writers ▸ hwriters), fun src hsrc => ?_,
      fun q' id src done hq' => ?_⟩
    · exact (pipeWrite_spec h'.valid src).accepts hcount hreaders (List.length_pos_of_ne_nil hsrc)
    · have hdone := (h'.writing q' id src done hq').2.2.1
      exact (pipeWriteResume_spec h'.valid hdone).accepts hcount hreaders hdone
  · have h' := h.step hstep
    obtain ⟨hfull, hreaders⟩ : s'.pipe.count = pipeBufSize ∧ 0 < s'.pipe.readers := by
      generalize hl : PipeLabel.write q id src (.yield d) = l at hstep
      cases hstep with
      | enterWrite q' src' hq hi =>
          obtain ⟨rfl, rfl, rfl, hout⟩ := PipeLabel.write.inj hl
          exact (pipeWrite_spec h.valid src).full hout.symm
      | resumeWrite q' id' src' done hi =>
          obtain ⟨rfl, rfl, rfl, hout⟩ := PipeLabel.write.inj hl
          exact (pipeWriteResume_spec h.valid (h.writing q id src done hi).2.2.1).full hout.symm
      | _ => cases hl
    refine ⟨hfull, List.ne_nil_of_length_pos (h'.readers ▸ hreaders), fun n hn => ?_⟩
    have hspec := (pipeRead_spec h'.valid n).2.2.2
    cases hout : (pipeRead s'.pipe n).1 with
    | yield => simpa [hfull] using (pipeRead_yield hout).2.1
    | ret bytes =>
        refine ⟨bytes, fun hnil => ?_, rfl⟩
        rw [hout] at hspec
        simpa [hfull] using (hspec.2.2 hnil hn).1

/-- The hypotheses of `pipe_progress` are satisfiable: in its new pipe a process waits for a byte, or with
one byte too many for the ring. -/
theorem pipe_progress_start : (∃ s, PipeStep (pipeStart 0) (.read 0 1 .yield) s ∧ 0 < (pipeWrite s.pipe [7]).2.count) ∧
    ∃ src d s bytes, src.length = 4097 ∧ PipeStep (pipeStart 0) (.write 0 0 src (.yield d)) s ∧ bytes ≠ [] ∧
      (pipeRead s.pipe 1).1 = .ret bytes := by
  obtain ⟨hread, hwrite⟩ := pipe_progress (.init ⟨0, rfl⟩)
  refine ⟨⟨_, .enterRead 0 1 (by simp [pipeStart]) rfl, (hread 0 1 _ (.enterRead 0 1 (by simp [pipeStart]) rfl)).2.2.1
    [7] (by simp)⟩, ?_⟩
  obtain ⟨src, hsrc⟩ : ∃ src : List UInt8, src.length = 4097 := ⟨_, List.length_replicate (a := 7)⟩
  have hstep := PipeStep.enterWrite (s := pipeStart 0) 0 src (by simp [pipeStart]) rfl
  have hspec := pipeWrite_spec (pipeInv_start 0).valid src
  cases hout : (pipeWrite (pipeStart 0).pipe src).1 with
  | yield d =>
      rw [hout] at hstep
      obtain ⟨bytes, hne, hret⟩ := (hwrite 0 0 _ d _ hstep).2.2 1 one_pos
      exact ⟨src, d, _, bytes, hsrc, hstep, hne, hret⟩
  | ret r =>
      -- all bytes would be in the ring
      have hcount := hspec.valid.count_le
      have ho := hspec.outcome
      rw [hout] at ho
      have hempty : (pipeStart 0).pipe.count = 0 := rfl
      rcases ho with ⟨-, hall | hnone⟩ | hnone
      · simp only [pipeBufSize] at hcount
        omega
      · cases hnone.2
      · cases hnone.2.2.1

end LighthOS
