/-
# Pipelines of the shell

`run_pipeline` and `job_add` of `user/shell.c`, as the shell process runs them: its descriptors, the
children it has not waited for, the groups of the processes and the table of jobs.  What the kernel
may do is a parameter: which calls of `sys_pipe` and `sys_fork` fail, and what each `sys_waitpid`
reports.

A pipeline leaves the descriptors as they were, and no child behind that no job stands for,
exactly where `PipelineOk` holds (`pipeline_contained_iff`): an early return closes nothing and
waits for nobody, and a background pipeline is recorded under its last stage.  For the same reason
the recorded pid is the group of the pipeline only in the foreground or for a single stage
(`job_names_group_iff`).
-/

import LighthOS.Kernel.Fd
import LighthOS.Kernel.Path

namespace LighthOS

/-! ### The shell -/

/-- `struct job`. -/
structure Job where
  pid : ℕ
  alive : Bool
  cmd : CString
  deriving DecidableEq

/-- The shell process and what the kernel knows of its children: `pgid` are the groups of the
processes, `children` those that were forked and not reaped, and `foreground` is the group that has
the terminal. -/
structure Shell where
  proc : Process
  pgid : ℕ → ℕ
  children : List ℕ
  foreground : ℕ
  jobs : List Job

/-- `job_add`, which does nothing where no entry is free. -/
def jobAdd (pid : ℕ) (cmd : CString) : List Job → List Job
  | [] => []
  | j :: js => if j.alive then j :: jobAdd pid cmd js else ⟨pid, true, cmd.take 63⟩ :: js

/-- What `sys_waitpid` reports of a child. -/
inductive WaitResult
  | exited (code : ℕ)
  | stopped
  deriving DecidableEq

/-- The status word, with `SIG_STOP` under the bit of a stop. -/
def WaitResult.st : WaitResult → ℕ
  | exited code => code
  | stopped => 0x100 ||| 19

/-- The child is gone when `sys_waitpid` has reported this. -/
def WaitResult.Reaped (w : WaitResult) : Prop := w ≠ stopped

/-- `st & 0x100`: a stop, or an exit code with the bit of one. -/
def WaitResult.Breaks (w : WaitResult) : Prop := w.st.testBit 8 = true

instance (w : WaitResult) : Decidable w.Reaped := inferInstanceAs (Decidable (w ≠ .stopped))

instance (w : WaitResult) : Decidable w.Breaks := inferInstanceAs (Decidable (w.st.testBit 8 = true))

/-- What the kernel answers: the address of the pipe that `pipe_create` makes for a stage, 0 for
none; the pid that `sys_fork` returns; and what `sys_waitpid` reports. -/
structure PipelineEnv where
  pipe : ℕ → ℕ
  fork : ℕ → Option ℕ
  wait : ℕ → WaitResult

/-- `sys_pipe`, on the descriptors of the process. -/
def sysPipe (p : Process) (addr : ℕ) : Option (ℕ × ℕ × Process) :=
  match freeFds p with
  | [rfd, wfd] =>
      if addr = 0 then none
      else
        let fds := Function.update p.fds rfd { p.fds rfd with type := .pipeRead, pipe := addr }
        some (rfd, wfd, { p with fds := Function.update fds wfd { fds wfd with type := .pipeWrite, pipe := addr } })
  | _ => none

/-- `sys_close` of an end of a pipe. -/
def sysClose (p : Process) (fd : ℕ) : Process := { p with fds := Function.update p.fds fd .zero }

/-! ### `run_pipeline` -/

/-- The variables of the loop over the stages. -/
structure PipelineLoop where
  shell : Shell
  prevRead : Option ℕ
  pids : List ℕ
  pgidLeader : ℕ

section Run

variable (env : PipelineEnv)

/-- The pipe of a stage. -/
def openPipe (isLast : Bool) (i : ℕ) (l : PipelineLoop) : Option (Option (ℕ × ℕ) × PipelineLoop) :=
  if isLast then some (none, l)
  else (sysPipe l.shell.proc (env.pipe i)).map fun (rfd, wfd, p) =>
    (some (rfd, wfd), { l with shell := { l.shell with proc := p } })

/-- What the parent does for a stage after `sys_fork` returned `pid`.  The child's own `setpgid` sets
the same group.  `none` is a store behind `pids`. -/
def afterFork (i : ℕ) (pfds : Option (ℕ × ℕ)) (pid : ℕ) (l : PipelineLoop) : Option PipelineLoop :=
  let leader := if i = 0 then pid else l.pgidLeader
  let p := l.prevRead.elim l.shell.proc (sysClose l.shell.proc)
  if l.pids.length < 8 then
    some { shell := { l.shell with
             proc := pfds.elim p fun (_, wfd) => sysClose p wfd
             pgid := Function.update l.shell.pgid pid (if leader = 0 then pid else leader)
             children := l.shell.children ++ [pid] }
           prevRead := pfds.map Prod.fst
           pids := l.pids ++ [pid]
           pgidLeader := leader }
  else none

/-- A round of the loop over the stages: `false` is the early `return 1`. -/
def runStage (isLast : Bool) (i : ℕ) (l : PipelineLoop) : Option (Bool × PipelineLoop) :=
  match openPipe env isLast i l with
  | none => some (false, l)
  | some (pfds, l) =>
      match env.fork i with
      | none => some (false, l)
      | some pid => (afterFork i pfds pid l).map fun l => (true, l)

/-- The loop over the stages, with the number of those that are left. -/
def runStages (n : ℕ) : ℕ → PipelineLoop → Option (Bool × PipelineLoop)
  | 0, l => some (true, l)
  | rem + 1, l => (runStage env (rem == 0) (n - (rem + 1)) l).bind fun (go, l) =>
      if go then runStages n rem l else some (false, l)

/-- The loop of `sys_waitpid`: the last status, whether it saw a stop, and the children that are
left. -/
def waitStages (n : ℕ) : List ℕ → ℕ → List ℕ → ℕ × Bool × List ℕ
  | [], _, children => (0, false, children)
  | pid :: pids, i, children =>
      let left := if (env.wait i).Reaped then children.erase pid else children
      if (env.wait i).Breaks then ((env.wait i).st, true, left)
      else
        let (last, stopped, children) := waitStages n pids (i + 1) left
        (if i + 1 = n then (env.wait i).st else last, stopped, children)

/-- `run_pipeline`: what it returns, the shell, and the pid it passes to `job_add`.  `none` is an
access outside `pids`. -/
def runPipeline (s : Shell) (nstages : ℕ) (background : Bool) (rawLine : CString) :
    Option (ℕ × Shell × Option ℕ) :=
  (runStages env nstages nstages ⟨s, none, [], 0⟩).bind fun (go, l) =>
    if !go then some (1, l.shell, none)
    else if background then
      l.pids.getLast?.map fun pid => (0, { l.shell with jobs := jobAdd pid rawLine l.shell.jobs }, some pid)
    else
      let (last, stopped, children) := waitStages env l.pids.length l.pids 0 l.shell.children
      let s := { l.shell with children := children, foreground := l.shell.proc.pid }
      if stopped then
        l.pids.head?.map fun pid => (last, { s with jobs := jobAdd pid rawLine s.jobs }, some pid)
      else some (last, s, none)

end Run

/-! ### What the calls do -/

@[simp] theorem sysClose_self (p : Process) (fd : ℕ) : (sysClose p fd).fds fd = .zero := Function.update_self _ _ _

theorem sysClose_of_ne (p : Process) {fd j : ℕ} (h : j ≠ fd) : (sysClose p fd).fds j = p.fds j :=
  Function.update_of_ne h _ _

/-- How many descriptors `sys_pipe` may take. -/
def freeCount (p : Process) : ℕ := (List.range' 3 (fdMax - 3)).countP fun j => (p.fds j).type == .none

/-- The same descriptors: those that are free are not compared further. -/
def SameFd (e e' : FdEntry) : Prop := e' = e ∨ e.type = .none ∧ e'.type = .none

theorem SameFd.free_iff {e e' : FdEntry} (h : SameFd e e') : e'.type = .none ↔ e.type = .none := by
  rcases h with rfl | ⟨he, he'⟩
  · rfl
  · exact iff_of_true he' he

section Calls

variable {p p' : Process} {addr rfd wfd : ℕ}

theorem sysPipe_isSome : (sysPipe p addr).isSome ↔ addr ≠ 0 ∧ 2 ≤ freeCount p := by
  rw [sysPipe, freeCount, List.countP_eq_length_filter, freeFds]
  split
  · rename_i h
    have hlen := congrArg List.length h
    rw [List.length_take] at hlen
    simp only [List.length_cons, List.length_nil] at hlen
    split_ifs with haddr
    · simp [haddr]
    · simp only [Option.isSome_some, true_iff]
      exact ⟨haddr, by omega⟩
  · rename_i h
    refine iff_of_false Bool.false_ne_true fun ⟨_, hlen⟩ => ?_
    match hl : (List.range' 3 (fdMax - 3)).filter fun j => (p.fds j).type == .none with
    | [] | [_] => simp [hl] at hlen
    | r :: w :: rest => exact h r w (by rw [hl]; rfl)

/-- **`sys_pipe`** takes two free descriptors. -/
theorem sysPipe_spec (h : sysPipe p addr = some (rfd, wfd, p')) :
    rfd ≠ wfd ∧ (rfd ∈ List.range' 3 (fdMax - 3) ∧ (p.fds rfd).type = .none) ∧ (p.fds wfd).type = .none ∧
      (p'.fds rfd).type = .pipeRead ∧ ∀ j, j ≠ rfd → j ≠ wfd → p'.fds j = p.fds j := by
  unfold sysPipe at h
  split at h
  · rename_i r w hfree
    split_ifs at h
    simp only [Option.some.injEq, Prod.mk.injEq] at h
    obtain ⟨rfl, rfl, rfl⟩ := h
    have hsub := (List.take_sublist 2 ((List.range' 3 (fdMax - 3)).filter fun j => (p.fds j).type == .none))
    rw [freeFds] at hfree
    rw [hfree] at hsub
    have hnodup : [r, w].Nodup := hsub.nodup (List.Nodup.filter _ (by decide))
    have hmem := fun j hj => List.mem_filter.1 (hsub.subset (a := j) hj)
    have hne : r ≠ w := by simpa using hnodup
    refine ⟨hne, ⟨(hmem r (by simp)).1, by simpa using (hmem r (by simp)).2⟩, by simpa using (hmem w (by simp)).2,
      ?_, fun j hr hw => ?_⟩
    · simp [Function.update_of_ne hne]
    · simp [Function.update_of_ne hw, Function.update_of_ne hr]
  · cases h

/-- The model of `sys_pipe` on one process is what `fd_pipe` does for the current one. -/
theorem fdPipe_eq {k : Kernel} {i : ℕ} (hi : processCurrent k = some i) (addr : ℕ) :
    (fdPipe k addr).1 = (sysPipe (k.procs i) addr).map (fun r => (r.1, r.2.1)) ∧
      (fdPipe k addr).2.procs i = ((sysPipe (k.procs i) addr).map fun r => r.2.2).getD (k.procs i) := by
  unfold fdPipe sysPipe
  rw [hi]
  dsimp only
  match freeFds (k.procs i) with
  | [] | [_] | _ :: _ :: _ :: _ => exact ⟨rfl, rfl⟩
  | [r, w] =>
      by_cases haddr : addr = 0
      · simp only [if_pos haddr]
        exact ⟨rfl, rfl⟩
      · simp only [if_neg haddr]
        exact ⟨rfl, by simp [Kernel.setProc]⟩

/-- And `sys_close` what `fd_close` does. -/
theorem fdClose_eq {k : Kernel} {i fd : ℕ} (hi : processCurrent k = some i) (hfd : fd < fdMax)
    (htype : ((k.procs i).fds fd).type = .pipeRead ∨ ((k.procs i).fds fd).type = .pipeWrite) :
    (fdClose k fd).1 = true ∧ (fdClose k fd).2.procs i = sysClose (k.procs i) fd := by
  unfold fdClose
  rw [hi]
  dsimp only
  rw [if_neg (by simp only [fdMax] at hfd ⊢; omega), Int.toNat_natCast]
  rcases htype with h | h <;>
  · simp only [h, fdDropRef, closeEnd, Kernel.setProc, Function.update_self, sysClose, true_and]

end Calls

/-- A table that differs from the first one only in the read end that the loop keeps. -/
structure Holding (p p' : Process) (prev : Option ℕ) : Prop where
  held : ∀ r, prev = some r → r ∈ List.range' 3 (fdMax - 3) ∧ (p.fds r).type = .none ∧ (p'.fds r).type = .pipeRead
  same : ∀ j, prev ≠ some j → SameFd (p.fds j) (p'.fds j)

namespace Holding

variable {p p' p'' : Process} {prev : Option ℕ} {addr rfd wfd : ℕ}

theorem refl (p : Process) : Holding p p none := ⟨fun _ h => (nomatch h), fun _ _ => .inl rfl⟩

/-- Closing the read end of the stage before. -/
theorem close (h : Holding p p' prev) : Holding p (prev.elim p' (sysClose p')) none := by
  refine ⟨fun _ h => (nomatch h), fun j _ => ?_⟩
  cases prev with
  | none => exact h.same j nofun
  | some r =>
      by_cases hj : j = r
      · subst hj
        exact .inr ⟨(h.held j rfl).2.1, by simp [FdEntry.zero]⟩
      · rw [Option.elim, sysClose_of_ne _ hj]
        exact h.same j (by simpa using Ne.symm hj)

/-- The pipe of the next stage, with the two closes after its fork. -/
theorem pipe (h : Holding p p' prev) (hpipe : sysPipe p' addr = some (rfd, wfd, p'')) :
    Holding p (sysClose (prev.elim p'' (sysClose p'')) wfd) (some rfd) := by
  obtain ⟨hne, ⟨hrange, hr⟩, hw, hread, hother⟩ := sysPipe_spec hpipe
  have hheld : prev ≠ some rfd := fun hprev => by simpa [hr] using (h.held rfd hprev).2.2
  have hprevNe : ∀ j, prev ≠ some j → (prev.elim p'' (sysClose p'')).fds j = p''.fds j := by
    intro j hj
    cases prev with
    | none => rfl
    | some r => exact sysClose_of_ne _ (by simpa using Ne.symm hj)
  refine ⟨?_, fun j hj => ?_⟩
  · rintro _ ⟨⟩
    refine ⟨hrange, (h.same rfd hheld).free_iff.1 hr, ?_⟩
    rw [sysClose_of_ne _ hne, hprevNe rfd hheld]
    exact hread
  have hjr : j ≠ rfd := by simpa using Ne.symm hj
  by_cases hjw : j = wfd
  · subst hjw
    have hwprev : prev ≠ some j := fun hprev => by simpa [hw] using (h.held j hprev).2.2
    exact .inr ⟨(h.same j hwprev).free_iff.1 hw, by simp [FdEntry.zero]⟩
  · rw [sysClose_of_ne _ hjw]
    cases prev with
    | none => exact hother j hjr hjw ▸ h.same j nofun
    | some r =>
        by_cases hj' : j = r
        · subst hj'
          exact .inr ⟨(h.held j rfl).2.1, by simp [FdEntry.zero]⟩
        · rw [Option.elim, sysClose_of_ne _ hj', hother j hjr hjw]
          exact h.same j (by simpa using Ne.symm hj')

/-- What the table has room for. -/
theorem freeCount_eq (h : Holding p p' prev) : freeCount p' + (if prev.isSome then 1 else 0) = freeCount p := by
  cases prev with
  | none =>
      rw [freeCount, freeCount]
      refine List.countP_congr fun j _ => ?_
      simpa using (h.same j nofun).free_iff
  | some r =>
      obtain ⟨hmem, hfree, hread⟩ := h.held r rfl
      obtain ⟨before, after, hsplit⟩ := List.append_of_mem hmem
      have hnodup : (before ++ r :: after).Nodup := hsplit ▸ (by decide)
      have hne : ∀ j ∈ before ++ after, j ≠ r := by
        rintro j hj rfl
        exact (List.nodup_middle.1 hnodup).notMem hj
      have hcongr : ∀ l : List ℕ, (∀ j ∈ l, j ∈ before ++ after) → l.countP (fun j => (p'.fds j).type == .none) =
          l.countP fun j => (p.fds j).type == .none := by
        refine fun l hl => List.countP_congr fun j hj => ?_
        simpa using (h.same j (by simpa using Ne.symm (hne j (hl j hj)))).free_iff
      rw [freeCount, freeCount, hsplit, List.countP_append, List.countP_append, List.countP_cons, List.countP_cons,
        hcongr before (fun j hj => List.mem_append_left _ hj), hcongr after (fun j hj => List.mem_append_right _ hj)]
      simp [hfree, hread]
      omega

end Holding

/-! ### The loop over the stages -/

/-- The pids that `sys_fork` returns are new ones. -/
structure FreshPids (env : PipelineEnv) (s : Shell) (n : ℕ) : Prop where
  pos : ∀ i < n, env.fork i ≠ some 0
  inj : ∀ i < n, ∀ j < n, ∀ pid, env.fork i = some pid → env.fork j = some pid → i = j
  child : ∀ i < n, ∀ pid, env.fork i = some pid → pid ∉ s.children
  job : ∀ i < n, ∀ pid, env.fork i = some pid → ∀ j ∈ s.jobs, j.alive = true → j.pid ≠ pid

/-- The pipe of stage `k` of `n` can be made: the third and later stages find one descriptor less. -/
def PipeOpens (env : PipelineEnv) (s : Shell) (k : ℕ) : Prop :=
  env.pipe k ≠ 0 ∧ (if k = 0 then 2 else 3) ≤ freeCount s.proc

/-- Stage `k` of `n` starts. -/
def Starts (env : PipelineEnv) (s : Shell) (n k : ℕ) : Prop :=
  (k + 1 < n → PipeOpens env s k) ∧ (env.fork k).isSome

/-- What holds when `i` stages of `n` have started. -/
structure Started (env : PipelineEnv) (s : Shell) (n i : ℕ) (l : PipelineLoop) : Prop where
  length : l.pids.length = i
  pids : ∀ k < i, l.pids[k]? = env.fork k
  starts : ∀ k < i, Starts env s n k
  le : i ≤ 8
  children : l.shell.children = s.children ++ l.pids
  jobs : l.shell.jobs = s.jobs
  leader : 0 < i → env.fork 0 = some l.pgidLeader
  pgid : ∀ q, l.shell.pgid q = if q ∈ l.pids then l.pgidLeader else s.pgid q
  prev : l.prevRead.isSome ↔ 0 < i ∧ i < n
  fds : Holding s.proc l.shell.proc l.prevRead

section Loop

variable {env : PipelineEnv} {s : Shell} {n i : ℕ} {l l' : PipelineLoop}

theorem started_zero (env : PipelineEnv) (s : Shell) (n : ℕ) : Started env s n 0 ⟨s, none, [], 0⟩ where
  length := rfl
  pids := nofun
  starts := nofun
  le := Nat.zero_le _
  children := (List.append_nil _).symm
  jobs := rfl
  leader := nofun
  pgid _ := rfl
  prev := ⟨nofun, nofun⟩
  fds := .refl _

/-- A pid of the loop is what `sys_fork` returned for a stage. -/
theorem Started.mem_iff (hs : Started env s n i l) (q : ℕ) : q ∈ l.pids ↔ ∃ k < i, env.fork k = some q := by
  rw [List.mem_iff_getElem?]
  constructor
  · rintro ⟨k, hk⟩
    have hlt : k < i := hs.length ▸ (List.getElem?_eq_some_iff.1 hk).1
    exact ⟨k, hlt, hs.pids k hlt ▸ hk⟩
  · rintro ⟨k, hlt, hk⟩
    exact ⟨k, hs.pids k hlt ▸ hk⟩

theorem Started.nodup (hs : Started env s n i l) (hfresh : FreshPids env s n) (hi : i ≤ n) : l.pids.Nodup := by
  rw [List.nodup_iff_getElem?_ne_getElem?]
  intro a b hab hb heq
  rw [hs.length] at hb
  rw [hs.pids a (hab.trans hb), hs.pids b hb] at heq
  obtain ⟨pid, hpid⟩ := Option.isSome_iff_exists.1 (hs.starts b hb).2
  exact hab.ne (hfresh.inj a (by omega) b (by omega) pid (heq.trans hpid) hpid)

/-- Whether the loop gets the pipe of its next stage. -/
theorem Started.openPipe_isSome (hs : Started env s n i l) (hi : i + 1 < n) :
    (openPipe env false i l).isSome ↔ PipeOpens env s i := by
  have hcount := hs.fds.freeCount_eq
  have hprev : l.prevRead.isSome = decide (0 < i) := by
    rw [Bool.eq_iff_iff, hs.prev, decide_eq_true_iff]
    exact ⟨And.left, fun h => ⟨h, by omega⟩⟩
  rw [hprev] at hcount
  rw [openPipe, if_neg Bool.false_ne_true, Option.isSome_map, sysPipe_isSome, PipeOpens]
  refine and_congr_right fun _ => ?_
  by_cases hzero : i = 0
  · simp [hzero] at hcount ⊢
    omega
  · have hpos : 0 < i := Nat.pos_of_ne_zero hzero
    simp [hpos, hzero] at hcount ⊢
    omega

theorem openPipe_cases {isLast : Bool} {pfds : Option (ℕ × ℕ)} (h : openPipe env isLast i l = some (pfds, l')) :
    (isLast = true ∧ pfds = none ∧ l' = l) ∨
      (isLast = false ∧ ∃ r w p, sysPipe l.shell.proc (env.pipe i) = some (r, w, p) ∧ pfds = some (r, w) ∧
        l' = { l with shell := { l.shell with proc := p } }) := by
  unfold openPipe at h
  cases isLast with
  | true =>
      rw [if_pos rfl] at h
      cases h
      exact .inl ⟨rfl, rfl, rfl⟩
  | false =>
      rw [if_neg Bool.false_ne_true, Option.map_eq_some_iff] at h
      obtain ⟨⟨r, w, p⟩, hpipe, heq⟩ := h
      simp only [Prod.mk.injEq] at heq
      exact .inr ⟨rfl, r, w, p, hpipe, heq.1.symm, heq.2.symm⟩

/-- The descriptors after a stage. -/
theorem Started.fds_next {pfds : Option (ℕ × ℕ)} (hs : Started env s n i l)
    (h : openPipe env (i + 1 == n) i l = some (pfds, l')) :
    Holding s.proc (pfds.elim (l'.prevRead.elim l'.shell.proc (sysClose l'.shell.proc)) fun r =>
      sysClose (l'.prevRead.elim l'.shell.proc (sysClose l'.shell.proc)) r.2) (pfds.map Prod.fst) := by
  obtain ⟨-, rfl, rfl⟩ | ⟨-, r, w, p, hpipe, rfl, rfl⟩ := openPipe_cases h
  · exact hs.fds.close
  · exact hs.fds.pipe hpipe

/-- **A stage that starts** keeps the invariant. -/
theorem Started.next {pfds : Option (ℕ × ℕ)} {l₁ : PipelineLoop} {pid : ℕ} (hs : Started env s n i l)
    (hfresh : FreshPids env s n) (hi : i < n) (hpipe : openPipe env (i + 1 == n) i l = some (pfds, l₁))
    (hfork : env.fork i = some pid) (h : afterFork i pfds pid l₁ = some l') : Started env s n (i + 1) l' := by
  have hfds := hs.fds_next hpipe
  have hopens : i + 1 < n → PipeOpens env s i := by
    intro hlt
    rw [← hs.openPipe_isSome hlt]
    rw [show (i + 1 == n) = false from beq_eq_false_iff_ne.2 hlt.ne] at hpipe
    rw [hpipe]
    rfl
  have hsome : (pfds.map Prod.fst).isSome ↔ 0 < i + 1 ∧ i + 1 < n := by
    rw [Option.isSome_map]
    obtain ⟨hlast, rfl, -⟩ | ⟨hlast, r, w, p, -, rfl, -⟩ := openPipe_cases hpipe
    · exact iff_of_false Bool.false_ne_true fun hlt => hlt.2.ne (beq_iff_eq.1 hlast)
    · exact iff_of_true rfl ⟨Nat.succ_pos i, lt_of_le_of_ne hi (beq_eq_false_iff_ne.1 hlast)⟩
  have hl : l₁.pids = l.pids ∧ l₁.pgidLeader = l.pgidLeader ∧ l₁.shell.pgid = l.shell.pgid ∧
      l₁.shell.children = l.shell.children ∧ l₁.shell.jobs = l.shell.jobs := by
    obtain ⟨-, -, rfl⟩ | ⟨-, r, w, p, -, -, rfl⟩ := openPipe_cases hpipe <;> exact ⟨rfl, rfl, rfl, rfl, rfl⟩
  obtain ⟨hpids, hleader, hpgid, hchildren, hjobs⟩ := hl
  unfold afterFork at h
  dsimp only at h
  rw [hpids, hleader, hpgid, hchildren] at h
  have hlt : l.pids.length < 8 := by
    by_contra hge
    rw [if_neg hge] at h
    cases h
  rw [if_pos hlt] at h
  obtain rfl := Option.some.inj h
  have hleadEq : env.fork 0 = some (if i = 0 then pid else l.pgidLeader) := by
    split_ifs with hzero
    · exact hzero ▸ hfork
    · exact hs.leader (Nat.pos_of_ne_zero hzero)
  have hleadPos : (if i = 0 then pid else l.pgidLeader) ≠ 0 := by
    intro hzero
    rw [hzero] at hleadEq
    exact hfresh.pos 0 (by omega) hleadEq
  refine ⟨by simp [hs.length], fun k hk => ?_, fun k hk => ?_, by have := hs.length; omega, ?_, hjobs.trans hs.jobs,
    fun _ => hleadEq, fun q => ?_, hsome, hfds⟩
  · rcases Nat.lt_succ_iff_lt_or_eq.1 hk with hk | rfl
    · rw [List.getElem?_append_left (hs.length ▸ hk), hs.pids k hk]
    · rw [← hs.length, List.getElem?_concat_length, hs.length, hfork]
  · rcases Nat.lt_succ_iff_lt_or_eq.1 hk with hk | rfl
    · exact hs.starts k hk
    · exact ⟨hopens, hfork ▸ rfl⟩
  · rw [hs.children, List.append_assoc]
  · dsimp only
    rw [if_neg hleadPos]
    by_cases hq : q = pid
    · rw [hq, Function.update_self, if_pos (List.mem_append_right _ List.mem_cons_self)]
    rw [Function.update_of_ne hq, hs.pgid q]
    by_cases hmem : q ∈ l.pids
    · have hpos : i ≠ 0 := by
        rintro rfl
        rw [List.length_eq_zero_iff.1 hs.length] at hmem
        cases hmem
      rw [if_pos hmem, if_pos (List.mem_append_left _ hmem), if_neg hpos]
    · rw [if_neg hmem, if_neg]
      simp [hmem, hq]

theorem runStage_cases {isLast go : Bool} (h : runStage env isLast i l = some (go, l')) :
    (go = false ∧ openPipe env isLast i l = none ∧ l' = l) ∨
      (go = false ∧ env.fork i = none ∧ ∃ pfds, openPipe env isLast i l = some (pfds, l')) ∨
      (go = true ∧ ∃ pfds l₁ pid, openPipe env isLast i l = some (pfds, l₁) ∧ env.fork i = some pid ∧
        afterFork i pfds pid l₁ = some l') := by
  unfold runStage at h
  cases hpipe : openPipe env isLast i l with
  | none =>
      rw [hpipe] at h
      cases h
      exact .inl ⟨rfl, rfl, rfl⟩
  | some r =>
      obtain ⟨pfds, l₁⟩ := r
      cases hfork : env.fork i with
      | none =>
          simp only [hpipe, hfork, Option.some.injEq, Prod.mk.injEq] at h
          obtain ⟨rfl, rfl⟩ := h
          exact .inr (.inl ⟨rfl, rfl, pfds, rfl⟩)
      | some pid =>
          simp only [hpipe, hfork, Option.map_eq_some_iff, Prod.mk.injEq] at h
          obtain ⟨l₂, hafter, rfl, rfl⟩ := h
          exact .inr (.inr ⟨rfl, pfds, l₁, pid, rfl, rfl, hafter⟩)

/-- **The loop over the stages** ends with all of them started, or in the stage that could not
start. -/
theorem runStages_spec (hfresh : FreshPids env s n) {rem : ℕ} {go : Bool} (hs : Started env s n i l)
    (hi : i + rem = n) (h : runStages env n rem l = some (go, l')) :
    (go = true ∧ Started env s n n l') ∨
      (go = false ∧ ∃ j l₁, j < n ∧ Started env s n j l₁ ∧ runStage env (j + 1 == n) j l₁ = some (false, l')) := by
  induction rem generalizing i l with
  | zero =>
      cases h
      obtain rfl : i = n := hi
      exact .inl ⟨rfl, hs⟩
  | succ rem ih =>
      have hlast : (rem == 0) = (i + 1 == n) := by
        rw [Bool.eq_iff_iff, beq_iff_eq, beq_iff_eq]
        omega
      rw [runStages, hlast, show n - (rem + 1) = i by omega, Option.bind_eq_some_iff] at h
      obtain ⟨⟨go₁, l₁⟩, hstage, h⟩ := h
      cases go₁ with
      | false =>
          cases h
          exact .inr ⟨rfl, i, l, by omega, hs, hstage⟩
      | true =>
          dsimp only at h
          rw [if_pos rfl] at h
          obtain ⟨hgo, -⟩ | ⟨hgo, -⟩ | ⟨-, pfds, l₂, pid, hpipe, hfork, hafter⟩ := runStage_cases hstage
          · cases hgo
          · cases hgo
          exact ih (hs.next hfresh (by omega) hpipe hfork hafter) (by omega) h

/-- Stages that all can start do so. -/
theorem runStages_total (hfresh : FreshPids env s n) (hall : ∀ k < n, Starts env s n k) (hn : n ≤ 8) {rem : ℕ}
    (hs : Started env s n i l) (hi : i + rem = n) : ∃ l', runStages env n rem l = some (true, l') := by
  induction rem generalizing i l with
  | zero => exact ⟨l, rfl⟩
  | succ rem ih =>
      have hlast : (rem == 0) = (i + 1 == n) := by
        rw [Bool.eq_iff_iff, beq_iff_eq, beq_iff_eq]
        omega
      rw [runStages, hlast, show n - (rem + 1) = i by omega]
      obtain ⟨hopens, hforks⟩ := hall i (by omega)
      obtain ⟨pid, hfork⟩ := Option.isSome_iff_exists.1 hforks
      have hpipe : (openPipe env (i + 1 == n) i l).isSome := by
        by_cases hend : i + 1 = n
        · rw [hend, beq_self_eq_true]
          rfl
        · rw [show (i + 1 == n) = false from beq_eq_false_iff_ne.2 hend, hs.openPipe_isSome (by omega)]
          exact hopens (by omega)
      obtain ⟨⟨pfds, l₁⟩, hpipe⟩ := Option.isSome_iff_exists.1 hpipe
      have hafter : (afterFork i pfds pid l₁).isSome := by
        have hpids : l₁.pids = l.pids := by
          obtain ⟨-, -, rfl⟩ | ⟨-, r, w, p, -, -, rfl⟩ := openPipe_cases hpipe <;> rfl
        rw [afterFork, if_pos (by rw [hpids, hs.length]; omega)]
        rfl
      obtain ⟨l₂, hafter⟩ := Option.isSome_iff_exists.1 hafter
      simp only [runStage, hpipe, hfork, hafter, Option.map_some, Option.bind_some, if_true]
      exact ih (hs.next hfresh (by omega) hpipe hfork hafter) (by omega)

end Loop

/-! ### Jobs and waiting -/

/-- An entry that `job_add` can take. -/
def HasSlot (jobs : List Job) : Prop := ∃ j ∈ jobs, j.alive = false

instance (jobs : List Job) : Decidable (HasSlot jobs) := inferInstanceAs (Decidable (∃ j ∈ jobs, j.alive = false))

theorem jobAdd_of_full {jobs : List Job} (h : ¬ HasSlot jobs) (pid : ℕ) (cmd : CString) :
    jobAdd pid cmd jobs = jobs := by
  induction jobs with
  | nil => rfl
  | cons j js ih =>
      have hj : j.alive = true := by
        by_contra hdead
        exact h ⟨j, List.mem_cons_self, by simpa using hdead⟩
      rw [jobAdd, if_pos hj, ih fun ⟨j', hj', hdead⟩ => h ⟨j', List.mem_cons_of_mem _ hj', hdead⟩]

theorem mem_jobAdd {jobs : List Job} {pid : ℕ} {cmd : CString} {j : Job} (h : j ∈ jobAdd pid cmd jobs) :
    j ∈ jobs ∨ j.pid = pid := by
  induction jobs with
  | nil => cases h
  | cons j' js ih =>
      rw [jobAdd] at h
      split_ifs at h
      · rcases List.mem_cons.1 h with rfl | h
        · exact .inl List.mem_cons_self
        · exact (ih h).imp_left (List.mem_cons_of_mem _)
      · rcases List.mem_cons.1 h with rfl | h
        · exact .inr rfl
        · exact .inl (List.mem_cons_of_mem _ h)

theorem jobAdd_recorded {jobs : List Job} (h : HasSlot jobs) (pid : ℕ) (cmd : CString) :
    ∃ j ∈ jobAdd pid cmd jobs, j.alive = true ∧ j.pid = pid := by
  induction jobs with
  | nil => exact absurd h (by rintro ⟨_, ⟨⟩, _⟩)
  | cons j js ih =>
      rw [jobAdd]
      split_ifs with hj
      · obtain ⟨j', hj', hdead⟩ := h
        rcases List.mem_cons.1 hj' with rfl | hj'
        · exact absurd (hj.symm.trans hdead) (by decide)
        obtain ⟨j'', hmem, hrec⟩ := ih ⟨j', hj', hdead⟩
        exact ⟨j'', List.mem_cons_of_mem _ hmem, hrec⟩
      · exact ⟨_, List.mem_cons_self, rfl, rfl⟩

section Wait

variable {env : PipelineEnv}

/-- **The loop of `sys_waitpid`** leaves no child exactly where it breaks off nowhere, or only behind
the last child and that one has exited. -/
theorem waitStages_spec (env : PipelineEnv) (n : ℕ) {pids old : List ℕ} (hnodup : pids.Nodup) (hold : ∀ q ∈ pids, q ∉ old) (i : ℕ) :
    ((waitStages env n pids i (old ++ pids)).2.1 = true ↔ ∃ k < pids.length, (env.wait (i + k)).Breaks) ∧
      (waitStages env n pids i (old ++ pids)).2.2 ⊆ old ++ pids ∧
      ((waitStages env n pids i (old ++ pids)).2.2 ⊆ old ↔ ∀ k < pids.length, (env.wait (i + k)).Breaks →
        k + 1 = pids.length ∧ (env.wait (i + k)).Reaped) := by
  induction pids generalizing i with
  | nil => simp [waitStages]
  | cons pid pids ih =>
      obtain ⟨hpid, hnodup⟩ := List.nodup_cons.1 hnodup
      have hnew : pid ∉ old := hold pid List.mem_cons_self
      have herase : (old ++ pid :: pids).erase pid = old ++ pids := by
        rw [List.erase_append_right _ hnew, List.erase_cons_head]
      obtain ⟨ihstop, ihsub, ihleft⟩ := ih hnodup (fun q hq => hold q (List.mem_cons_of_mem _ hq)) (i + 1)
      have hsub : old ++ pids ⊆ old ++ pid :: pids := by
        intro q hq
        rcases List.mem_append.1 hq with hq | hq
        · exact List.mem_append_left _ hq
        · exact List.mem_append_right _ (List.mem_cons_of_mem _ hq)
      rw [waitStages]
      by_cases hbreak : (env.wait i).Breaks
      · rw [if_pos hbreak]
        refine ⟨iff_of_true rfl ⟨0, Nat.succ_pos _, hbreak⟩, ?_⟩
        by_cases hreaped : (env.wait i).Reaped
        · rw [if_pos hreaped, herase]
          refine ⟨hsub, fun hleft => ?_, fun h => ?_⟩
          · have hnil : pids = [] := List.eq_nil_iff_forall_not_mem.2 fun q hq =>
              hold q (List.mem_cons_of_mem _ hq) (hleft (List.mem_append_right _ hq))
            subst hnil
            intro k hk _
            obtain rfl : k = 0 := Nat.lt_one_iff.1 hk
            exact ⟨rfl, hreaped⟩
          · have hlen : 0 + 1 = (pid :: pids).length := (h 0 (Nat.succ_pos _) hbreak).1
            have hnil : pids = [] := List.length_eq_zero_iff.1 (Nat.succ.inj hlen).symm
            rw [hnil, List.append_nil]
            exact List.Subset.refl _
        · rw [if_neg hreaped]
          refine ⟨List.Subset.refl _, iff_of_false (fun hleft => ?_) fun h => ?_⟩
          · exact hnew (hleft (List.mem_append_right _ List.mem_cons_self))
          · exact hreaped (h 0 (Nat.succ_pos _) hbreak).2
      · have hreaped : (env.wait i).Reaped := fun hwait => hbreak (by rw [hwait]; decide)
        rw [if_neg hbreak, if_pos hreaped, herase]
        dsimp only
        have hshift : ∀ k, i + (k + 1) = i + 1 + k := fun k => by omega
        refine ⟨ihstop.trans ⟨?_, ?_⟩, List.Subset.trans ihsub hsub, ihleft.trans ⟨fun h k hk hk' => ?_, fun h k hk hk' => ?_⟩⟩
        · rintro ⟨k, hk, hk'⟩
          exact ⟨k + 1, Nat.succ_lt_succ hk, hshift k ▸ hk'⟩
        · rintro ⟨k, hk, hk'⟩
          cases k with
          | zero => exact absurd hk' hbreak
          | succ k => exact ⟨k, Nat.lt_of_succ_lt_succ hk, hshift k ▸ hk'⟩
        · cases k with
          | zero => exact absurd hk' hbreak
          | succ k =>
              rw [hshift] at hk' ⊢
              obtain ⟨hlen, hlast⟩ := h k (Nat.lt_of_succ_lt_succ hk) hk'
              exact ⟨congrArg (· + 1) hlen, hlast⟩
        · rw [← hshift] at hk' ⊢
          obtain ⟨hlen, hlast⟩ := h (k + 1) (Nat.succ_lt_succ hk) hk'
          exact ⟨Nat.succ.inj hlen, hlast⟩

end Wait

/-! ### What a pipeline leaves behind -/

/-- A live job has the pid of the process or that of its group. -/
def Recorded (s : Shell) (q : ℕ) : Prop := ∃ j ∈ s.jobs, j.alive = true ∧ (j.pid = q ∨ j.pid = s.pgid q)

/-- The descriptors are as before, and every new child that was not reaped belongs to a job. -/
structure Contained (s s' : Shell) : Prop where
  fds : ∀ j, SameFd (s.proc.fds j) (s'.proc.fds j)
  children : ∀ q ∈ s'.children, q ∈ s.children ∨ Recorded s' q

/-- The first stage does not start and has opened nothing. -/
def Refused (env : PipelineEnv) (s : Shell) (n : ℕ) : Prop :=
  n = 1 ∧ env.fork 0 = none ∨ 1 < n ∧ ¬ PipeOpens env s 0

/-- The first stage is refused, or all stages start and a job has room for what `run_pipeline` does not
wait for: in the background a single stage, in the foreground what a stop leaves. -/
def PipelineOk (env : PipelineEnv) (s : Shell) (n : ℕ) (background : Bool) : Prop :=
  Refused env s n ∨
    ((∀ k < n, Starts env s n k) ∧ n ≤ 8 ∧
      if background then n = 1 ∧ HasSlot s.jobs
      else HasSlot s.jobs ∨ ∀ k < n, (env.wait k).Breaks → k + 1 = n ∧ (env.wait k).Reaped)

section Pipeline

variable {env : PipelineEnv} {s s' : Shell} {n i : ℕ} {l l' : PipelineLoop} {background : Bool} {rawLine : CString}

/-- A stage of the pipeline is in no job that was there before. -/
theorem Started.not_recorded (hs : Started env s n i l) (hfresh : FreshPids env s n) (hi : i ≤ n) {q : ℕ}
    (hq : q ∈ l.pids) {j : Job} (hj : j ∈ s.jobs) (halive : j.alive = true) : ¬ (j.pid = q ∨ j.pid = l.shell.pgid q) := by
  obtain ⟨k, hk, hfork⟩ := (hs.mem_iff q).1 hq
  rw [hs.pgid q, if_pos hq]
  rintro (hpid | hpid)
  · exact hfresh.job k (by omega) q hfork j hj halive hpid
  · exact hfresh.job 0 (by omega) _ (hs.leader (by omega)) j hj halive hpid

/-- **An early return** is harmless only in the first stage. -/
theorem Started.contained_early (hs : Started env s n i l) (hfresh : FreshPids env s n) (hi : i < n)
    (h : runStage env (i + 1 == n) i l = some (false, l')) : Contained s l'.shell ↔ Refused env s n := by
  have hkept : l'.shell.children = s.children ++ l.pids ∧ l'.shell.jobs = s.jobs ∧ l'.shell.pgid = l.shell.pgid := by
    obtain ⟨-, -, rfl⟩ | ⟨-, -, pfds, hpipe⟩ | ⟨hgo, -⟩ := runStage_cases h
    · exact ⟨hs.children, hs.jobs, rfl⟩
    · obtain ⟨-, -, rfl⟩ | ⟨-, r, w, p, -, -, rfl⟩ := openPipe_cases hpipe <;> exact ⟨hs.children, hs.jobs, rfl⟩
    · cases hgo
  obtain ⟨hchildren, hjobs, hpgid⟩ := hkept
  rcases Nat.eq_zero_or_pos i with rfl | hpos
  · have hnil : l.pids = [] := List.length_eq_zero_iff.1 hs.length
    have hprev : l.prevRead = none := by
      rw [← Option.not_isSome_iff_eq_none, hs.prev]
      omega
    have hsame : ∀ j, SameFd (s.proc.fds j) (l.shell.proc.fds j) := fun j => hs.fds.same j (hprev ▸ nofun)
    have hold : ∀ q ∈ l'.shell.children, q ∈ s.children ∨ Recorded l'.shell q := by
      rw [hchildren, hnil, List.append_nil]
      exact fun q hq => .inl hq
    obtain ⟨-, hpipe, rfl⟩ | ⟨-, hfork, pfds, hpipe⟩ | ⟨hgo, -⟩ := runStage_cases h
    · refine iff_of_true ⟨hsame, hold⟩ (.inr ?_)
      have hlt : 0 + 1 ≠ n := by
        rintro rfl
        cases hpipe
      refine ⟨by omega, fun hopens => ?_⟩
      rw [show (0 + 1 == n) = false from beq_eq_false_iff_ne.2 hlt] at hpipe
      exact absurd ((hs.openPipe_isSome (by omega)).2 hopens) (by rw [hpipe]; exact Bool.false_ne_true)
    · obtain ⟨hlast, -, rfl⟩ | ⟨hlast, r, w, p, hsys, -, rfl⟩ := openPipe_cases hpipe
      · exact iff_of_true ⟨hsame, hold⟩ (.inl ⟨(beq_iff_eq.1 hlast).symm, hfork⟩)
      · have hne := beq_eq_false_iff_ne.1 hlast
        refine iff_of_false (fun hcont => ?_) ?_
        · obtain ⟨-, ⟨-, hfree⟩, -, hread, -⟩ := sysPipe_spec hsys
          have hfree' := (hcont.fds r).free_iff.2 ((hsame r).free_iff.1 hfree)
          exact absurd (hread.symm.trans hfree') (by decide)
        · rintro (⟨rfl, -⟩ | ⟨-, hopens⟩)
          · exact hne rfl
          · rw [hlast] at hpipe
            exact hopens ((hs.openPipe_isSome (by omega)).1 (by rw [hpipe]; rfl))
    · cases hgo
  · refine iff_of_false (fun hcont => ?_) ?_
    · have hmem : l.pgidLeader ∈ l.pids := (hs.mem_iff _).2 ⟨0, hpos, hs.leader hpos⟩
      rcases hcont.children l.pgidLeader (hchildren ▸ List.mem_append_right _ hmem) with hold | ⟨j, hj, halive, hpid⟩
      · exact hfresh.child 0 (by omega) _ (hs.leader hpos) hold
      · rw [hjobs] at hj
        rw [hpgid] at hpid
        exact hs.not_recorded hfresh hi.le hmem hj halive hpid
    · rintro (⟨rfl, -⟩ | ⟨hlt, hopens⟩)
      · omega
      · exact hopens ((hs.starts 0 hpos).1 hlt)

/-- The descriptors when all stages have started. -/
theorem Started.sameFds (hs : Started env s n n l) (j : ℕ) : SameFd (s.proc.fds j) (l.shell.proc.fds j) := by
  have hprev : l.prevRead = none := by
    rw [← Option.not_isSome_iff_eq_none, hs.prev]
    omega
  exact hs.fds.same j (hprev ▸ nofun)

/-- **In the background** only the last stage is recorded. -/
theorem Started.contained_background (hs : Started env s n n l) (hfresh : FreshPids env s n) {pid : ℕ}
    (hpid : l.pids.getLast? = some pid) (rawLine : CString) :
    Contained s { l.shell with jobs := jobAdd pid rawLine l.shell.jobs } ↔ n = 1 ∧ HasSlot s.jobs := by
  have hpos : 0 < n := by
    rw [← hs.length, List.length_pos_iff]
    rintro hnil
    rw [hnil] at hpid
    cases hpid
  have hlast : env.fork (n - 1) = some pid := by
    rw [← hs.pids (n - 1) (by omega), ← hpid, List.getLast?_eq_getElem?, hs.length]
  have hleader := hs.leader hpos
  have hmem : l.pgidLeader ∈ l.pids := (hs.mem_iff _).2 ⟨0, hpos, hleader⟩
  rw [hs.jobs]
  constructor
  · intro hcont
    rcases hcont.children l.pgidLeader (hs.children ▸ List.mem_append_right _ hmem) with hold | ⟨j, hj, halive, hrec⟩
    · exact absurd hold (hfresh.child 0 hpos _ hleader)
    have hnew : j ∉ s.jobs := fun hj => hs.not_recorded hfresh le_rfl hmem hj halive hrec
    have hslot : HasSlot s.jobs := by
      by_contra hfull
      rw [jobAdd_of_full hfull] at hj
      exact hnew hj
    refine ⟨?_, hslot⟩
    rcases mem_jobAdd hj with hj | rfl
    · exact absurd hj hnew
    have heq : j.pid = l.pgidLeader := by
      rcases hrec with hrec | hrec
      · exact hrec
      · rw [hrec, hs.pgid, if_pos hmem]
    have hzero := hfresh.inj (n - 1) (by omega) 0 hpos _ (hlast.trans (congrArg some heq)) hleader
    omega
  · rintro ⟨rfl, hslot⟩
    refine ⟨hs.sameFds, fun q hq => ?_⟩
    rw [hs.children] at hq
    refine (List.mem_append.1 hq).imp_right fun hq => ?_
    obtain ⟨k, hk, hfork⟩ := (hs.mem_iff q).1 hq
    obtain rfl : k = 0 := Nat.lt_one_iff.1 hk
    obtain ⟨j, hj, halive, hjpid⟩ := jobAdd_recorded hslot pid rawLine
    exact ⟨j, hj, halive, .inl (hjpid.trans (Option.some.inj (hlast.symm.trans hfork)))⟩

/-- **In the foreground** a stop leaves what the job of the leader stands for. -/
theorem Started.contained_foreground (hs : Started env s n n l) (hfresh : FreshPids env s n) {last : ℕ} {stopped : Bool}
    {left : List ℕ} (hwait : waitStages env n l.pids 0 l.shell.children = (last, stopped, left)) (foreground : ℕ)
    (rawLine : CString) :
    Contained s { l.shell with
      children := left, foreground := foreground
      jobs := if stopped then jobAdd l.pgidLeader rawLine l.shell.jobs else l.shell.jobs } ↔
      HasSlot s.jobs ∨ ∀ k < n, (env.wait k).Breaks → k + 1 = n ∧ (env.wait k).Reaped := by
  have hold : ∀ q ∈ l.pids, q ∉ s.children := by
    intro q hq
    obtain ⟨k, hk, hfork⟩ := (hs.mem_iff q).1 hq
    exact hfresh.child k hk q hfork
  obtain ⟨hstop, hsub, hleft⟩ := waitStages_spec env n (hs.nodup hfresh le_rfl) hold 0
  rw [← hs.children, hwait] at hstop hsub hleft
  simp only [hs.length, Nat.zero_add] at hstop hleft
  rw [hs.children] at hsub
  rw [← hleft, hs.jobs]
  constructor
  · intro hcont
    refine or_iff_not_imp_left.2 fun hfull q hq => ?_
    rcases hcont.children q hq with hq' | ⟨j, hj, halive, hrec⟩
    · exact hq'
    rcases List.mem_append.1 (hsub hq) with hq' | hq'
    · exact hq'
    have hj' : j ∈ s.jobs := by
      dsimp only at hj
      rwa [jobAdd_of_full hfull, ite_self] at hj
    exact absurd hrec (hs.not_recorded hfresh le_rfl hq' hj' halive)
  · intro hok
    refine ⟨hs.sameFds, fun q hq => ?_⟩
    cases stopped with
    | false =>
        refine .inl (hleft.2 (fun k hk hbreak => ?_) hq)
        exact absurd (hstop.2 ⟨k, hk, hbreak⟩) Bool.false_ne_true
    | true =>
        rcases hok with hslot | hok
        · refine (List.mem_append.1 (hsub hq)).imp_right fun hq' => ?_
          obtain ⟨j, hj, halive, hjpid⟩ := jobAdd_recorded hslot l.pgidLeader rawLine
          refine ⟨j, hj, halive, .inr ?_⟩
          rw [hjpid, hs.pgid q, if_pos hq']
        · exact .inl (hok hq)

/-- The pid of the leader is the first one. -/
theorem Started.head? (hs : Started env s n n l) (hn : 0 < n) : l.pids.head? = some l.pgidLeader := by
  rw [List.head?_eq_getElem?, hs.pids 0 hn, hs.leader hn]

/-- **All stages have started:** what `run_pipeline` then does. -/
theorem runPipeline_of_started (hrun : runStages env n n ⟨s, none, [], 0⟩ = some (true, l))
    (hs : Started env s n n l) (hfresh : FreshPids env s n) :
    (∃ ret s' added, runPipeline env s n background rawLine = some (ret, s', added) ∧ Contained s s') ↔
      if background then n = 1 ∧ HasSlot s.jobs
      else HasSlot s.jobs ∨ ∀ k < n, (env.wait k).Breaks → k + 1 = n ∧ (env.wait k).Reaped := by
  rw [runPipeline, hrun, Option.bind_some]
  dsimp only
  rw [if_neg (by decide)]
  cases background with
  | true =>
      rw [if_pos rfl, if_pos rfl]
      cases hlast : l.pids.getLast? with
      | none =>
          refine iff_of_false (by rintro ⟨_, _, _, ⟨⟩, _⟩) fun ⟨hone, _⟩ => ?_
          rw [List.getLast?_eq_none_iff, ← List.length_eq_zero_iff, hs.length] at hlast
          omega
      | some pid =>
          rw [← hs.contained_background hfresh hlast rawLine]
          exact ⟨fun ⟨_, _, _, heq, hcont⟩ => by cases heq; exact hcont, fun h => ⟨_, _, _, rfl, h⟩⟩
  | false =>
      rw [if_neg Bool.false_ne_true, if_neg Bool.false_ne_true, hs.length]
      rcases hwait : waitStages env n l.pids 0 l.shell.children with ⟨last, stopped, left⟩
      rw [← hs.contained_foreground hfresh hwait l.shell.proc.pid rawLine]
      dsimp only
      cases stopped with
      | false => exact ⟨fun ⟨_, _, _, heq, hcont⟩ => by cases heq; exact hcont, fun h => ⟨_, _, _, rfl, h⟩⟩
      | true =>
          have hpos : 0 < n := by
            rw [← hs.length, List.length_pos_iff]
            intro hnil
            rw [hnil] at hwait
            cases hwait
          rw [if_pos rfl, hs.head? hpos]
          exact ⟨fun ⟨_, _, _, heq, hcont⟩ => by cases heq; exact hcont, fun h => ⟨_, _, _, rfl, h⟩⟩

theorem runPipeline_of_refused (h : Refused env s n) : runPipeline env s n background rawLine = some (1, s, none) := by
  have hs := started_zero env s n
  obtain ⟨rfl, hfork⟩ | ⟨hlt, hopens⟩ := h
  · simp [runPipeline, runStages, runStage, openPipe, hfork]
  · obtain ⟨m, rfl⟩ : ∃ m, n = m + 1 := ⟨n - 1, by omega⟩
    have hpipe : openPipe env false 0 ⟨s, none, [], 0⟩ = none := by
      rw [← Option.not_isSome_iff_eq_none, hs.openPipe_isSome hlt]
      exact hopens
    have hlast : (m == 0) = false := beq_eq_false_iff_ne.2 (by omega)
    simp [runPipeline, runStages, runStage, hlast, hpipe]

/-- **Pipelines and what they leave:** the shell's descriptors are as before the call and every child is
waited for or belongs to a job, exactly where the first stage is refused at once, or every stage
starts and what is not waited for is a single background stage or a stopped pipeline for which
the table of jobs has room. -/
theorem pipeline_contained_iff (hfresh : FreshPids env s n) (background : Bool) (rawLine : CString) :
    (∃ ret s' added, runPipeline env s n background rawLine = some (ret, s', added) ∧ Contained s s') ↔
      PipelineOk env s n background := by
  constructor
  · intro h
    obtain ⟨ret, s', added, hrun, hcont⟩ := id h
    rw [runPipeline, Option.bind_eq_some_iff] at hrun
    obtain ⟨⟨go, l⟩, hstages, hrun⟩ := hrun
    obtain ⟨rfl, hs⟩ | ⟨rfl, j, l₁, hj, hs, hstage⟩ := runStages_spec hfresh (started_zero env s n) (Nat.zero_add n) hstages
    · exact .inr ⟨hs.starts, hs.le, (runPipeline_of_started hstages hs hfresh).1 h⟩
    · cases hrun
      exact .inl ((hs.contained_early hfresh hj hstage).1 hcont)
  · rintro (hrefused | ⟨hall, hle, hok⟩)
    · exact ⟨1, s, none, runPipeline_of_refused hrefused, fun _ => .inl rfl, fun _ => .inl⟩
    · obtain ⟨l, hstages⟩ := runStages_total hfresh hall hle (started_zero env s n) (Nat.zero_add n)
      obtain ⟨-, hs⟩ | ⟨hgo, -⟩ := runStages_spec hfresh (started_zero env s n) (Nat.zero_add n) hstages
      · exact (runPipeline_of_started hstages hs hfresh).2 hok
      · cases hgo

/-- A shell without jobs or open files, of pid 1. -/
def idleShell : Shell := ⟨{ Process.zero with pid := 1 }, fun _ => 0, [], 1, List.replicate 8 ⟨0, false, []⟩⟩

/-- The pids from 2 on. -/
def countingEnv (wait : ℕ → WaitResult) : PipelineEnv := ⟨fun _ => 1, fun i => some (i + 2), wait⟩

theorem freshPids_counting (wait : ℕ → WaitResult) (n : ℕ) : FreshPids (countingEnv wait) idleShell n where
  pos := by simp [countingEnv]
  inj i _ j _ pid hi hj := Nat.add_right_cancel (Option.some.inj (hi.trans hj.symm))
  child i _ pid _ := by simp [idleShell]
  job i _ pid _ j hj halive := by
    rw [(List.mem_replicate.1 hj).2] at halive
    cases halive

/-- The hypothesis of `pipeline_contained_iff` is satisfiable: two stages in the foreground. -/
theorem pipeline_contained_iff_two : ∃ ret s' added,
    runPipeline (countingEnv fun _ => .exited 0) idleShell 2 false [] = some (ret, s', added) ∧ Contained idleShell s' :=
  (pipeline_contained_iff (freshPids_counting _ 2) false []).2 (.inr ⟨fun k _ => ⟨fun _ => by
    refine ⟨Nat.one_ne_zero, ?_⟩
    split_ifs <;> decide, rfl⟩, by decide, .inl (by decide)⟩)

/-- **A failed `sys_fork` leaks:** where the second of two stages cannot be forked, the shell keeps
descriptor 3 open and never waits for its child 2. -/
theorem second_fork_leaks : ∃ s', runPipeline ⟨fun _ => 1, fun i => if i = 0 then some 2 else none, fun _ => .exited 0⟩
      idleShell 2 false [] = some (1, s', none) ∧
    (idleShell.proc.fds 3).type = .none ∧ (s'.proc.fds 3).type = .pipeRead ∧ s'.children = [2] ∧
    s'.jobs = idleShell.jobs :=
  ⟨_, rfl, rfl, rfl, rfl, rfl⟩

/-- A call that adds a job has started all stages, and names the last one or the leader. -/
theorem runPipeline_added (hfresh : FreshPids env s n) {ret p : ℕ}
    (hrun : runPipeline env s n background rawLine = some (ret, s', some p)) :
    ∃ l, Started env s n n l ∧ s'.pgid = l.shell.pgid ∧ (if background then l.pids.getLast? else l.pids.head?) = some p := by
  rw [runPipeline, Option.bind_eq_some_iff] at hrun
  obtain ⟨⟨go, l⟩, hstages, hrun⟩ := hrun
  obtain ⟨rfl, hs⟩ | ⟨rfl, -⟩ := runStages_spec hfresh (started_zero env s n) (Nat.zero_add n) hstages
  · refine ⟨l, hs, ?_⟩
    dsimp only at hrun
    rw [if_neg (by decide)] at hrun
    cases background with
    | true =>
        rw [if_pos rfl, Option.map_eq_some_iff] at hrun
        obtain ⟨pid, hlast, heq⟩ := hrun
        cases heq
        exact ⟨rfl, hlast⟩
    | false =>
        rw [if_neg Bool.false_ne_true] at hrun
        rcases hwait : waitStages env l.pids.length l.pids 0 l.shell.children with ⟨last, stopped, left⟩
        rw [hwait] at hrun
        cases stopped with
        | false => cases hrun
        | true =>
            dsimp only at hrun
            rw [if_pos rfl, Option.map_eq_some_iff] at hrun
            obtain ⟨pid, hhead, heq⟩ := hrun
            cases heq
            exact ⟨rfl, hhead⟩
  · cases hrun

/-- **Recorded jobs name their group:** the pid that `run_pipeline` passes to `job_add` is the group of
its stages and of no other process, exactly in the foreground or for a single stage, and where no
other process had taken the pid of the first stage for its group. -/
theorem job_names_group_iff (hfresh : FreshPids env s n) {ret p : ℕ}
    (hrun : runPipeline env s n background rawLine = some (ret, s', some p)) :
    (∀ q, s'.pgid q = p ↔ ∃ k < n, env.fork k = some q) ↔
      (background = false ∨ n = 1) ∧ ∀ q, (∀ k < n, env.fork k ≠ some q) → env.fork 0 ≠ some (s.pgid q) := by
  obtain ⟨l, hs, hpgid, hpid⟩ := runPipeline_added hfresh hrun
  have hmem : p ∈ l.pids := by
    cases background with
    | true => exact List.mem_of_getLast? hpid
    | false => exact List.mem_of_head? hpid
  have hpos : 0 < n := hs.length ▸ List.length_pos_of_mem hmem
  have hleader := hs.leader hpos
  have hlead : l.pgidLeader = p ↔ background = false ∨ n = 1 := by
    cases background with
    | false => exact iff_of_true (Option.some.inj ((hs.head? hpos).symm.trans hpid)) (.inl rfl)
    | true =>
        have hlast : env.fork (n - 1) = some p := by
          rw [← hs.pids (n - 1) (by omega), ← hs.length, ← List.getLast?_eq_getElem?]
          exact hpid
        refine ⟨fun heq => .inr ?_, fun hone => ?_⟩
        · have hzero := hfresh.inj (n - 1) (by omega) 0 hpos p hlast (hleader.trans (congrArg some heq))
          omega
        · obtain rfl : n = 1 := hone.resolve_left (by decide)
          exact Option.some.inj (hleader.symm.trans hlast)
  rw [hpgid, ← hlead]
  constructor
  · intro h
    have heq : l.pgidLeader = p := by
      have hself := (h l.pgidLeader).2 ⟨0, hpos, hleader⟩
      rwa [hs.pgid, if_pos ((hs.mem_iff _).2 ⟨0, hpos, hleader⟩)] at hself
    refine ⟨heq, fun q hq hgroup => ?_⟩
    have hnot : q ∉ l.pids := fun hq' => by
      obtain ⟨k, hk, hfork⟩ := (hs.mem_iff q).1 hq'
      exact hq k hk hfork
    have hq' : l.shell.pgid q = p := by
      rw [hs.pgid, if_neg hnot, ← heq]
      exact Option.some.inj (hgroup.symm.trans hleader)
    obtain ⟨k, hk, hfork⟩ := (h q).1 hq'
    exact hq k hk hfork
  · rintro ⟨heq, hother⟩ q
    rw [hs.pgid, ← hs.mem_iff]
    split_ifs with hq
    · exact iff_of_true heq hq
    · refine iff_of_false (fun hgroup => ?_) hq
      refine hother q (fun k hk hfork => hq ((hs.mem_iff q).2 ⟨k, hk, hfork⟩)) ?_
      rw [hleader, hgroup, heq]

/-- The hypotheses of `job_names_group_iff` are satisfiable: two stages of which the first is stopped. -/
theorem job_names_group_iff_stopped : ∃ s', runPipeline (countingEnv fun _ => .stopped) idleShell 2 false [] =
    some (0x113, s', some 2) ∧ ∀ q, s'.pgid q = 2 ↔ ∃ k < 2, (countingEnv fun _ => .stopped).fork k = some q :=
  ⟨_, rfl, (job_names_group_iff (freshPids_counting (fun _ => .stopped) 2) rfl).2 ⟨.inl rfl, fun q _ =>
    by simp [countingEnv, idleShell]⟩⟩

/-- **A background pipeline under the wrong pid:** of two stages, 2 and 3, both in group 2, the job is
3. -/
theorem background_job_wrong : ∃ s', runPipeline (countingEnv fun _ => .exited 0) idleShell 2 true [] =
    some (0, s', some 3) ∧ s'.pgid 2 = 2 ∧ s'.pgid 3 = 2 :=
  ⟨_, rfl, rfl, rfl⟩

end Pipeline

end LighthOS
