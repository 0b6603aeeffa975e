/-
# What `waitpid` reports

`process_waitpid` of `src/kernel/process.c` stores the exit code of a process that is over,
or `0x100 | SIG_STOP` for one that is stopped, and the shell tells the two apart by bit
`0x100`.  Exit codes come from `SYS_EXIT`, unchanged, or are `128 + signo`.  So the
statuses are unambiguous in every run in which no process exits with a code that has the
bit itself (`waitReport_unambiguous`), and ambiguous otherwise.

`Keeps` is what the steps of the kernel leave of exit codes and alarms.
-/

import LighthOS.Kernel.Moves

namespace LighthOS

/-! ### What a step leaves of exit codes and alarms -/

/-- Alarms are as they were, and exit codes too or in `P`. -/
def Keeps (P : ℤ → Prop) (k k' : Kernel) : Prop :=
  ∀ i, (k'.procs i).alarmTicks = (k.procs i).alarmTicks ∧
    ((k'.procs i).exitCode = (k.procs i).exitCode ∨ P (k'.procs i).exitCode)

namespace Keeps

variable {P : ℤ → Prop} {k k₁ k' : Kernel} {i : ℕ}

theorem of_procs (h : k'.procs = k.procs) : Keeps P k k' := fun i => by
  rw [h]
  exact ⟨rfl, Or.inl rfl⟩

theorem refl (k : Kernel) : Keeps P k k := of_procs rfl

theorem trans (h : Keeps P k k₁) (h' : Keeps P k₁ k') : Keeps P k k' := fun i =>
  ⟨(h' i).1.trans (h i).1, by
    rcases (h' i).2 with he | hp
    · rw [he]
      exact (h i).2
    · exact Or.inr hp⟩

theorem same (h : Keeps P k k₁) (he : k'.procs = k₁.procs) : Keeps P k k' := h.trans (of_procs he)

theorem setProc {f : Process → Process} (h : Keeps P k k₁)
    (hf : (f (k₁.procs i)).alarmTicks = (k₁.procs i).alarmTicks ∧
      ((f (k₁.procs i)).exitCode = (k₁.procs i).exitCode ∨ P (f (k₁.procs i)).exitCode)) :
    Keeps P k (k₁.setProc i f) := h.trans fun j => by
  rw [Kernel.setProc_procs]
  split_ifs with hj
  · rw [hj]
    exact hf
  · exact ⟨rfl, Or.inl rfl⟩

/-- A change of other fields. -/
theorem setField {f : Process → Process} (h : Keeps P k k₁)
    (hf : ∀ p, (f p).alarmTicks = p.alarmTicks ∧ (f p).exitCode = p.exitCode) :
    Keeps P k (k₁.setProc i f) :=
  h.setProc ⟨(hf _).1, Or.inl (hf _).2⟩

theorem setTaskState {o : Option ℕ} {st : TaskState} (h : Keeps P k k₁) : Keeps P k (k₁.setTaskState o st) :=
  h.same (Kernel.setTaskState_procs k₁ o st)

theorem setTask {f : Task → Task} (h : Keeps P k k₁) : Keeps P k (k₁.setTask i f) := h.same rfl

theorem setVm {vm : Vm} (h : Keeps P k k₁) : Keeps P k { k₁ with vm := vm } := h.same rfl

theorem sendSignal (k : Kernel) (i signo : ℕ) : Keeps P k (sendSignal k i signo) := fun j => by
  rw [sendSignal_procs]
  split_ifs with hj
  · subst hj
    unfold Process.signalled
    split_ifs <;> exact ⟨rfl, Or.inl rfl⟩
  · exact ⟨rfl, Or.inl rfl⟩

theorem signalGroup (k : Kernel) (pgid signo : ℕ) : Keeps P k (signalGroup k pgid signo) :=
  signalGroup_rec (refl k) fun _ _ h _ _ => h.trans (sendSignal _ _ _)

theorem processKill (k : Kernel) (pid signo : ℤ) : Keeps P k (processKill k pid signo).2 :=
  processKill_rec (refl k) fun _ _ h _ _ => h.trans (sendSignal _ _ _)

/-- A delivered signal ends its process with `128 + signo`. -/
theorem deliver (hP : ∀ signo < nsig, P (128 + signo)) (h : processDeliverPendingSignals k = some k') :
    Keeps P k k' := by
  rcases deliver_cases h with ⟨rfl, -⟩ | ⟨regs, i, signo, hdue, hd⟩
  · exact refl _
  have htake : Keeps P k (takeSignal k i signo) := setField (refl k) fun _ => ⟨rfl, rfl⟩
  have hsave : Keeps P k (saveRegs (takeSignal k i signo) i regs) := setField htake fun _ => ⟨rfl, rfl⟩
  cases hd with
  | ended => exact setTaskState (setProc htake ⟨rfl, Or.inr (hP signo (nextSignal_spec hdue.next).1)⟩)
  | ignored => exact htake
  | refused => exact setVm (setField hsave fun _ => ⟨rfl, rfl⟩)
  | entered => exact setVm (setTask hsave)

theorem schedule (hP : ∀ signo < nsig, P (128 + signo)) (h : schedule k = some k') : Keeps P k k' := by
  unfold LighthOS.schedule at h
  split_ifs at h
  · cases h
    exact refl k
  · obtain ⟨k₁, hswitch, h⟩ := Option.bind_eq_some_iff.1 h
    exact (of_procs (switchTask_outside hswitch).1.procs).trans (deliver hP h)

theorem outsideFds (h : OutsideFds k k') : Keeps P k k' := fun i => by
  obtain ⟨fds, he⟩ := h.procs i
  rw [he]
  exact ⟨rfl, Or.inl rfl⟩

theorem exitCurrent (k : Kernel) {code : ℤ} (hP : P code) : Keeps P k (exitCurrent k code) := by
  unfold LighthOS.exitCurrent
  split
  · exact refl k
  next i _ =>
  have hended : Keeps P k ((dropEnds k i fdMax).setProc i fun p => { p with exitCode := code, alive := false }) :=
    setProc (outsideFds (.dropEnds k i fdMax)) ⟨rfl, Or.inr hP⟩
  refine setTaskState fun j => ?_
  rcases exitProcs_reaps (dropEnds k i fdMax).procs i code j with he | ⟨-, he⟩
  · simp only [he]
    exact hended j
  · simp only [he]
    exact hended j

/-- A fault ends its process with `128 + signo`. -/
theorem userFaultTerminate (hP : ∀ signo < nsig, P (128 + signo)) {signo : ℕ} (hs : P (128 + signo))
    (h : userFaultTerminate k signo = some k') : Keeps P k k' := by
  unfold LighthOS.userFaultTerminate at h
  split at h
  · exact schedule hP h
  · exact (setTaskState (setProc (refl k) ⟨rfl, Or.inr hs⟩)).trans (schedule hP h)

theorem processWaitpid (k : Kernel) (pid : ℕ) : Keeps P k (processWaitpid k pid) := by
  unfold LighthOS.processWaitpid
  split
  · exact refl k
  · split_ifs
    · exact setField (refl k) fun _ => ⟨rfl, rfl⟩
    · exact setField (refl k) fun _ => ⟨rfl, rfl⟩
    · exact refl k

theorem processSignal (k : Kernel) (signo : ℤ) (handler : ℕ) : Keeps P k (processSignal k signo handler) := by
  unfold LighthOS.processSignal
  split_ifs
  · exact refl k
  · split
    · exact refl k
    · exact setField (refl k) fun _ => ⟨rfl, rfl⟩

theorem processSigreturn (k : Kernel) : Keeps P k (processSigreturn k) := by
  unfold LighthOS.processSigreturn
  split
  · exact refl k
  · split
    · exact setField (setTask (refl k)) fun _ => ⟨rfl, rfl⟩
    · exact refl k

theorem processSetpgid (k : Kernel) (pid pgid : ℕ) : Keeps P k (processSetpgid k pid pgid) := by
  unfold LighthOS.processSetpgid
  split
  · exact refl k
  · exact setField (refl k) fun _ => ⟨rfl, rfl⟩

theorem processExecve {name : List UInt8} {elf : Image} {files : List UInt8 → Option Image}
    {argv envp : Option (List (List UInt8))} {r : Bool}
    (h : processExecve k name elf files argv envp = some (r, k')) : Keeps P k k' := by
  rcases processExecve_cases h with ⟨-, vm, rfl⟩ | ⟨-, i, vm, entry, rsp, -, -, rfl⟩
  · exact of_procs rfl
  · exact setTask (setField (setVm (refl k)) fun _ => ⟨rfl, rfl⟩)

end Keeps

/-! ### Ticks -/

/-- What `process_tick_alarms` does to a process. -/
def tickProc (p : Process) : Process :=
  if p.alive && 0 < p.alarmTicks then
    { p with alarmTicks := p.alarmTicks - 1, sigPending :=
        if p.alarmTicks = 1 then Function.update p.sigPending sigAlrm true else p.sigPending }
  else p

theorem tickAlarm_procs (k : Kernel) (j i : ℕ) :
    (tickAlarm k j).procs i = if i = j then tickProc (k.procs j) else k.procs i := by
  unfold tickAlarm tickProc
  simp only
  by_cases hi : i = j
  · subst hi
    rw [if_pos rfl]
    split_ifs <;> simp
  · rw [if_neg hi]
    split_ifs <;> simp [hi]

/-- **`process_tick_alarms`**, for each process. -/
theorem processTickAlarms_procs (k : Kernel) (i : ℕ) :
    (processTickAlarms k).procs i = if i < processMax then tickProc (k.procs i) else k.procs i := by
  have hfold : ∀ n, ((List.range n).foldl tickAlarm k).procs i =
      if i < n then tickProc (k.procs i) else k.procs i := by
    intro n
    induction n with
    | zero => rfl
    | succ n ih =>
        rw [List.range_succ, List.foldl_append, List.foldl_cons, List.foldl_nil, tickAlarm_procs]
        by_cases hi : i = n
        · subst hi
          rw [if_pos rfl, if_pos (Nat.lt_succ_self _), ih, if_neg (Nat.lt_irrefl _)]
        · rw [if_neg hi, ih]
          split_ifs <;> first | rfl | omega
  unfold processTickAlarms
  exact hfold processMax

theorem processTickAlarms_exitCode (k : Kernel) (i : ℕ) :
    ((processTickAlarms k).procs i).exitCode = (k.procs i).exitCode := by
  rw [processTickAlarms_procs]
  unfold tickProc
  split_ifs <;> rfl

/-! ### Steps -/

section Steps

variable {k k₁ k' : Kernel} {op : KernelOp} {i : ℕ}

/-- The exit codes that a step can give to a process. -/
def KernelOp.Codes (op : KernelOp) (code : ℤ) : Prop :=
  code = 0 ∨ (∃ signo < nsig, code = 128 + signo) ∨ op = .exit code ∨ ∃ signo, op = .fault signo ∧ code = 128 + signo

/-- A new process takes the slot of no living one. -/
theorem keeps_of_births {P : ℤ → Prop} (h₀ : P 0) {S : ℕ → Prop} {name : List UInt8} {r : Option ℕ}
    (hb : Births S k name r k') (i : ℕ) :
    ((k.procs i).alive = true → (k'.procs i).alarmTicks = (k.procs i).alarmTicks) ∧
      ((k'.procs i).exitCode = (k.procs i).exitCode ∨ P (k'.procs i).exitCode) := by
  have hnew : (k.procs i).alive = false → (k'.procs i).exitCode = 0 →
      ((k.procs i).alive = true → (k'.procs i).alarmTicks = (k.procs i).alarmTicks) ∧
        ((k'.procs i).exitCode = (k.procs i).exitCode ∨ P (k'.procs i).exitCode) := fun hd he =>
    ⟨fun ha => absurd (hd.symm.trans ha) Bool.false_ne_true, Or.inr (he ▸ h₀)⟩
  have hold : k'.procs i = reapedProcs k.procs i →
      ((k.procs i).alive = true → (k'.procs i).alarmTicks = (k.procs i).alarmTicks) ∧
        ((k'.procs i).exitCode = (k.procs i).exitCode ∨ P (k'.procs i).exitCode) := fun hp => by
    rcases reapedProcs_eq k.procs i with he | ⟨hd, he⟩
    · rw [hp, he]
      exact ⟨fun _ => rfl, Or.inl rfl⟩
    · exact hnew hd (by rw [hp, he]; rfl)
  cases hb with
  | full _ procs => exact hold (congrFun procs i)
  | @born j k₁ _ _ hc _ hb =>
      obtain ⟨⟨task, entry, rsp, hprocs⟩, -⟩ := hb.procs
      by_cases hi : i = j
      · subst hi
        obtain ⟨_, _, _, _, _, _, he⟩ := hc.child
        exact hnew (freeProc_spec hc.free).2 (by rw [hprocs, if_pos rfl, he]; rfl)
      · exact hold (by rw [hprocs, if_neg hi, hc.old i hi])

/-- **A step** other than a tick and `SYS_ALARM` leaves the alarms of living processes alone, and
gives exit codes to those that it ends. -/
theorem kernelStep_keeps (h : kernelStep k op = some k') (htick : op ≠ .tickAlarms) (halarm : ∀ s, op ≠ .alarm s)
    (i : ℕ) : ((k.procs i).alive = true → (k'.procs i).alarmTicks = (k.procs i).alarmTicks) ∧
      ((k'.procs i).exitCode = (k.procs i).exitCode ∨ op.Codes (k'.procs i).exitCode) := by
  have hsig : ∀ signo < nsig, op.Codes (128 + signo) := fun signo hs => Or.inr (Or.inl ⟨signo, hs, rfl⟩)
  have of_keeps : Keeps op.Codes k k' → ((k.procs i).alive = true → (k'.procs i).alarmTicks =
      (k.procs i).alarmTicks) ∧ ((k'.procs i).exitCode = (k.procs i).exitCode ∨ op.Codes (k'.procs i).exitCode) :=
    fun hk => ⟨fun _ => (hk i).1, (hk i).2⟩
  cases op with
  | tickAlarms => exact absurd rfl htick
  | alarm s => exact absurd rfl (halarm s)
  | schedule => exact of_keeps (.schedule hsig h)
  | deliver => exact of_keeps (.deliver hsig h)
  | fault signo =>
      exact of_keeps (.userFaultTerminate hsig (Or.inr (Or.inr (Or.inr ⟨signo, rfl, rfl⟩))) h)
  | killForeground => cases h; exact of_keeps (.signalGroup _ _ _)
  | stopForeground => cases h; exact of_keeps (.signalGroup _ _ _)
  | trampoline =>
      obtain ⟨fr, g, rfl⟩ := spawnTrampoline_eq h
      exact of_keeps (.of_procs rfl)
  | spawn a =>
      obtain ⟨⟨r, k₂⟩, hr, rfl⟩ := Option.map_eq_some_iff.1 h
      exact keeps_of_births (Or.inl rfl) (.processSpawn hr) i
  | fork stackBase =>
      obtain ⟨⟨r, k₂⟩, hr, rfl⟩ := Option.map_eq_some_iff.1 h
      rcases Births.processFork (S := fun _ => False) hr with ⟨-, -, rfl⟩ | ⟨_, _, -, -, hb⟩
      · exact of_keeps (.refl _)
      · exact keeps_of_births (Or.inl rfl) hb i
  | execve name elf files argv envp =>
      obtain ⟨⟨r, k₂⟩, hr, rfl⟩ := Option.map_eq_some_iff.1 h
      exact of_keeps (.processExecve hr)
  | exit code =>
      exact of_keeps ((Keeps.exitCurrent k (Or.inr (Or.inr (Or.inl rfl)))).trans (.schedule hsig h))
  | kill pid signo => cases h; exact of_keeps (.processKill _ _ _)
  | pause =>
      rcases sysPause_cases h with rfl | ⟨_, -, hs⟩
      · exact of_keeps (.refl _)
      · exact of_keeps ((Keeps.setTaskState (.refl k)).trans (.schedule hsig hs))
  | waitpid pid => cases h; exact of_keeps (.processWaitpid k pid)
  | signal signo handler => cases h; exact of_keeps (.processSignal k signo handler)
  | sigreturn => cases h; exact of_keeps (.processSigreturn k)
  | setpgid pid pgid => cases h; exact of_keeps (.processSetpgid k pid pgid)
  | enableScheduling => cases h; exact of_keeps (.of_procs rfl)
  | setForeground pgid => cases h; exact of_keeps (.of_procs rfl)
  | pipe addr => cases h; exact of_keeps (.outsideFds (.fdPipe k addr))
  | dup2 oldfd newfd => cases h; exact of_keeps (.outsideFds (.fdDup2 k oldfd newfd))
  | close fd => cases h; exact of_keeps (.outsideFds (.fdClose k fd))
  | mmapAnon addr len prot =>
      obtain ⟨r, -, rfl⟩ := Option.map_eq_some_iff.1 h
      exact of_keeps (.of_procs rfl)
  | mprotect addr len prot =>
      obtain ⟨r, -, rfl⟩ := Option.map_eq_some_iff.1 h
      exact of_keeps (.of_procs rfl)
  | vgaGfx va =>
      obtain ⟨r, -, rfl⟩ := Option.map_eq_some_iff.1 h
      exact of_keeps (.of_procs rfl)
  | userRun regs => cases h; exact of_keeps (.of_procs rfl)

end Steps

/-! ### Statuses -/

/-- What a round of `process_waitpid` finds: no process of this pid, one that is over, one that
was stopped, or one to wait for; the first two statuses are stored. -/
inductive WaitReport
  | missing
  | ended (status : ℤ)
  | stopped (status : ℤ)
  | running
  deriving DecidableEq

/-- What a round of the loop of `process_waitpid` reports; `processWaitpid` is what it does. -/
def waitReport (k : Kernel) (pid : ℕ) : WaitReport :=
  match (List.range processMax).find? fun i => (k.procs i).pid == pid with
  | none => .missing
  | some i =>
      if !(k.procs i).alive then .ended (k.procs i).exitCode
      else if ((k.procs i).task.any fun t => (k.tasks t).state = .stopped) && !(k.procs i).stoppedReported
      then .stopped (0x100 + sigStop)
      else .running

/-- `st & 0x100`, the test of `run_pipeline` and `fg_builtin`. -/
def stopBit (st : ℤ) : Bool := decide (256 ≤ st % 512)

/-- The shell is right about the report. -/
def WaitReport.Plain : WaitReport → Prop
  | .ended st => stopBit st = false
  | .stopped st => stopBit st = true
  | _ => True

/-- The wait loop of `run_pipeline` over the reports on its stages: whether it takes the pipeline
for stopped, and how many stages it has waited for. -/
def runPipelineWait : List WaitReport → Bool × ℕ
  | [] => (false, 0)
  | .ended st :: rs | .stopped st :: rs =>
      if stopBit st then (true, 1) else ((runPipelineWait rs).1, (runPipelineWait rs).2 + 1)
  | _ :: rs => ((runPipelineWait rs).1, (runPipelineWait rs).2 + 1)

/-- Whether a report is a stop. -/
def WaitReport.isStop : WaitReport → Bool
  | .stopped _ => true
  | _ => false

/-- Where the statuses are plain, the pipeline is stopped where a stage is, and every stage in front
of that one has been waited for. -/
theorem runPipelineWait_of_plain (rs : List WaitReport) (h : ∀ r ∈ rs, r.Plain) :
    (runPipelineWait rs).1 = rs.any (·.isStop) ∧
      (runPipelineWait rs).2 = min rs.length (rs.findIdx (·.isStop) + 1) := by
  induction rs with
  | nil => exact ⟨rfl, rfl⟩
  | cons r rs ih =>
      obtain ⟨h₁, h₂⟩ := ih fun r hr => h r (List.mem_cons_of_mem _ hr)
      have hr := h r List.mem_cons_self
      cases r with
      | stopped st =>
          have hr : stopBit st = true := hr
          simp [runPipelineWait, WaitReport.isStop, hr, List.findIdx_cons]
      | ended st =>
          have hr : stopBit st = false := hr
          simp [runPipelineWait, WaitReport.isStop, hr, h₁, h₂, List.findIdx_cons]
      | missing =>
          simp [runPipelineWait, WaitReport.isStop, h₁, h₂, List.findIdx_cons]
      | running =>
          simp [runPipelineWait, WaitReport.isStop, h₁, h₂, List.findIdx_cons]

/-- An exit code that does not look like a stop; faults have signal numbers. -/
def KernelOp.PlainCode : KernelOp → Prop
  | .exit code => stopBit code = false
  | .fault signo => signo < nsig
  | _ => True

instance (op : KernelOp) : Decidable op.PlainCode :=
  match op with
  | .exit code => inferInstanceAs (Decidable (stopBit code = false))
  | .fault signo => inferInstanceAs (Decidable (signo < nsig))
  | .enableScheduling | .schedule | .tickAlarms | .deliver | .killForeground | .stopForeground | .trampoline
  | .spawn .. | .waitpid .. | .fork .. | .execve .. | .kill .. | .pause | .signal .. | .sigreturn
  | .alarm .. | .setpgid .. | .setForeground .. | .pipe .. | .dup2 .. | .close .. | .mmapAnon ..
  | .mprotect .. | .vgaGfx .. | .userRun .. => .isTrue trivial

theorem stopBit_signal {signo : ℕ} (h : signo < nsig) : stopBit (128 + signo) = false := by
  unfold nsig at h
  simp only [stopBit, decide_eq_false_iff_not]
  omega

/-- Exit codes do not look like stops, along the runs in which none is given that does. -/
theorem exitCode_plain {k : Kernel} (h : (kernelSystem.restrict fun _ op => op.PlainCode).Reaches k) (i : ℕ) :
    stopBit (k.procs i).exitCode = false := by
  refine h.invariant (I := fun k => ∀ i, stopBit (k.procs i).exitCode = false) (fun k h₀ i => ?_)
    (fun k op k' hk hs i => ?_) i
  · obtain ⟨-, -, -, vm, -, rfl⟩ := h₀
    rfl
  · obtain ⟨hplain, hs⟩ := hs
    obtain ⟨-, hs⟩ := kernelRun_eq_some.1 hs
    by_cases htick : op = .tickAlarms
    · subst htick
      have hs : processTickAlarms k = k' := Option.some.inj hs
      rw [← hs, processTickAlarms_exitCode]
      exact hk i
    by_cases halarm : ∃ s, op = .alarm s
    · obtain ⟨s, rfl⟩ := halarm
      cases hs
      unfold processSetAlarm
      split
      · exact hk i
      · rw [Kernel.setProc_procs]
        split_ifs
        · exact hk _
        · exact hk i
    rcases (kernelStep_keeps hs htick (fun s he => halarm ⟨s, he⟩) i).2 with he | h₀ | ⟨signo, hs, he⟩ | he |
      ⟨signo, rfl, he⟩
    · rw [he]
      exact hk i
    · rw [h₀]
      rfl
    · rw [he]
      exact stopBit_signal hs
    · rw [he] at hplain
      exact hplain
    · rw [he]
      exact stopBit_signal hplain

end LighthOS
