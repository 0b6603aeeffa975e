/-
# What the kernel does to its tables

A step of the kernel changes the tables of tasks and processes in a few ways only:
a signal becomes pending, a task is stopped or made ready, a process ends with its
task, a frame in user mode changes, `schedule` switches tasks.  `Move` lists them,
and every step that neither makes a task nor blocks one is a sequence of moves
(`Moves.kernelRun`), in which only the processes of `KernelOp.ends` end.
`process_spawn_from_memory` and `process_fork` make a process, and then perhaps a
task for it (`Births`).

An invariant of the tables is thus kept by every step when it is kept by each move,
by a new process and by a new task.
-/

import LighthOS.Kernel.Machine
import Mathlib.Logic.Relation

namespace LighthOS

/-! ### Moves -/

/-- What a step that is not about a process leaves of it; signals may have been taken. -/
structure Process.Kept (p p' : Process) : Prop where
  pid : p'.pid = p.pid
  parentPid : p'.parentPid = p.parentPid
  alive : p'.alive = p.alive
  reaped : p'.reaped = p.reaped
  task : p'.task = p.task
  name : p'.name = p.name ∨ p'.name ≠ []
  pending : ∀ s, p'.sigPending s = true → p.sigPending s = true
  delivering : p'.sigDelivering = p.sigDelivering
  spawnEntry : p'.spawnEntry = p.spawnEntry
  spawnRsp : p'.spawnRsp = p.spawnRsp
  handlers : p'.sigHandlers = p.sigHandlers
  saved : p'.sigSavedRegs = p.sigSavedRegs

theorem Process.Kept.other (p : Process) (pgid : ℕ) (fds : ℕ → FdEntry) (b : Bool) (ticks : ℕ) :
    p.Kept { p with pgid := pgid, fds := fds, stoppedReported := b, alarmTicks := ticks } :=
  ⟨rfl, rfl, rfl, rfl, rfl, Or.inl rfl, fun _ h => h, rfl, rfl, rfl, rfl, rfl⟩

theorem Process.Kept.refl (p : Process) : p.Kept p := .other p _ _ _ _

/-- The processes that `process_alloc` clears are not alive. -/
theorem reapedProcs_kept {procs : ℕ → Process} {i : ℕ} (h : (reapedProcs procs i).alive = true) :
    (procs i).Kept (reapedProcs procs i) := by
  rcases reapedProcs_eq procs i with he | ⟨-, he⟩
  · rw [he]
    exact .refl _
  · rw [he] at h
    cases h

/-- The signal `signo` becomes pending for the process `i`, whose task is woken up. -/
def pendSignal (k : Kernel) (i signo : ℕ) : Kernel :=
  let k' := k.setProc i fun p => { p with sigPending := Function.update p.sigPending signo true }
  if (k.procs i).task.any fun t => (k.tasks t).state = .blocked then k'.setTaskState (k.procs i).task .ready
  else k'

theorem pendSignal_eq (k : Kernel) (i signo : ℕ) : ∃ o, (o = none ∨ o = (k.procs i).task) ∧ pendSignal k i signo =
    (k.setProc i fun p => { p with sigPending := Function.update p.sigPending signo true }).setTaskState o .ready := by
  unfold pendSignal
  simp only
  split_ifs
  · exact ⟨_, Or.inr rfl, rfl⟩
  · exact ⟨none, Or.inl rfl, rfl⟩

/-- How far a step can reach: the processes that it may end, and the addresses that it
brings in for user code to start at. -/
structure Scope where
  ends : ℕ → Prop
  starts : ℕ → Prop

/-- A step that ends no process and brings in no address. -/
def Scope.none : Scope := ⟨fun _ => False, fun _ => False⟩

/-- One change of the tables, within the scope `E`. -/
inductive Move (E : Scope) (k : Kernel) : Kernel → Prop
  /-- The memory, the pipes and the counters. -/
  | other {k' : Kernel} (tasks : k'.tasks = k.tasks) (procs : k'.procs = k.procs)
      (current : k'.current = k.current) (gSpawning : k'.gSpawning = k.gSpawning)
      (enabled : k.schedulingEnabled = true → k'.schedulingEnabled = true) : Move E k k'
  /-- Fields of processes. -/
  | procs (procs : ℕ → Process) (kept : ∀ i, (k.procs i).Kept (procs i)) :
      Move E k { k with procs := procs }
  /-- Nobody waits for some of the dead processes any more. -/
  | reap (procs : ℕ → Process) (reaps : ∀ i, procs i = k.procs i ∨
      (k.procs i).alive = false ∧ procs i = { k.procs i with reaped := true }) :
      Move E k { k with procs := procs }
  /-- The current process starts or ends the handling of a signal. -/
  | handle {i : ℕ} (f : Process → Process) (cur : processCurrent k = some i)
      (handles : ∀ p, ∃ regs b, f p = { p with sigSavedRegs := regs, sigDelivering := b } ∧
        (regs = p.sigSavedRegs ∨ ∃ r, (k.tasks k.current).frame = .user r ∧ regs = some r)) :
      Move E k (k.setProc i f)
  /-- The current process installs a signal handler. -/
  | disposition {i : ℕ} (signo handler : ℕ) (mem : E.starts handler) (cur : processCurrent k = some i) :
      Move E k (k.setProc i fun p => { p with sigHandlers := Function.update p.sigHandlers signo handler })
  | pend {i : ℕ} (signo : ℕ) (alive : (k.procs i).alive = true) : Move E k (pendSignal k i signo)
  | state {i : ℕ} {st : TaskState} (alive : (k.procs i).alive = true)
      (st_eq : st = .ready ∨ st = .stopped) : Move E k (k.setTaskState (k.procs i).task st)
  /-- User code goes on at an address that is brought in, in a signal handler, or where
  a signal interrupted it. -/
  | frame (regs : Regs) (user : (k.tasks k.current).frame.isUser = true)
      (rip : E.starts regs.rip ∨ ∃ i, processCurrent k = some i ∧
        ((∃ s, regs.rip = (k.procs i).sigHandlers s) ∨ (k.procs i).sigSavedRegs = some regs)) :
      Move E k (k.setTask k.current fun t => { t with frame := .user regs })
  | trampoline {k' : Kernel} (h : spawnTrampoline k = some k') : Move E k k'
  | ends {i : ℕ} (f : Process → Process) (mem : E.ends i) (alive : (k.procs i).alive = true)
      (dead : ∀ p, ∃ code, f p = { p with exitCode := code, alive := false }) :
      Move E k ((k.setProc i f).setTaskState (k.procs i).task .dead)
  | switch {k' : Kernel} (enabled : k.schedulingEnabled = true) (h : switchTask k = some k') :
      Move E k k'

theorem Move.mono {E E' : Scope} {k k' : Kernel} (h : Move E k k') (hE : ∀ i, E.ends i → E'.ends i)
    (hS : ∀ a, E.starts a → E'.starts a) : Move E' k k' := by
  cases h with
  | other h₁ h₂ h₃ h₄ h₅ => exact .other h₁ h₂ h₃ h₄ h₅
  | procs procs kept => exact .procs procs kept
  | reap procs reaps => exact .reap procs reaps
  | handle f cur handles => exact .handle f cur handles
  | disposition signo handler mem cur => exact .disposition signo handler (hS _ mem) cur
  | pend signo alive => exact .pend signo alive
  | state alive st_eq => exact .state alive st_eq
  | frame regs user rip => exact .frame regs user (rip.imp_left (hS _))
  | trampoline h => exact .trampoline h
  | ends f mem alive dead => exact .ends f (hE _ mem) alive dead
  | switch enabled h => exact .switch enabled h

/-- Changes of the tables, one after another. -/
def Moves (E : Scope) : Kernel → Kernel → Prop := Relation.ReflTransGen (Move E)

namespace Moves

variable {k k' k'' : Kernel} {E E' : Scope}

theorem refl (k : Kernel) : Moves E k k := Relation.ReflTransGen.refl

theorem trans (h : Moves E k k') (h' : Moves E k' k'') : Moves E k k'' :=
  Relation.ReflTransGen.trans h h'

theorem of_move (h : Move E k k') : Moves E k k' := Relation.ReflTransGen.single h

theorem tail (h : Moves E k k') (h' : Move E k' k'') : Moves E k k'' := Relation.ReflTransGen.tail h h'

theorem mono (h : Moves E k k') (hE : ∀ i, E.ends i → E'.ends i)
    (hS : ∀ a, E.starts a → E'.starts a) : Moves E' k k' := by
  induction h with
  | refl => exact refl k
  | tail _ hm ih => exact ih.tail (hm.mono hE hS)

/-- A step that brings in no address. -/
theorem widen {P : ℕ → Prop} (h : Moves ⟨P, fun _ => False⟩ k k') (hE : ∀ i, P i → E.ends i) :
    Moves E k k' := h.mono hE fun _ ha => ha.elim

/-- **An invariant** that every move keeps. -/
theorem invariant {I : Kernel → Prop} (h : Moves E k k') (hk : I k)
    (hI : ∀ k k', I k → Move E k k' → I k') : I k' := by
  induction h with
  | refl => exact hk
  | tail _ hm ih => exact hI _ _ ih hm

/-! ### Processes -/

/-- One process changes in fields that do not matter. -/
theorem setField {i : ℕ} {f : Process → Process} (hf : ∀ p : Process, p.Kept (f p)) :
    Moves E k (k.setProc i f) := by
  refine of_move (.procs _ fun j => ?_)
  by_cases hji : j = i
  · subst hji
    rw [Function.update_self]
    exact hf _
  · rw [Function.update_of_ne hji]
    exact .refl _

theorem outsideFds (h : OutsideFds k k') : Moves E k k' := by
  have hprocs : Moves E k { k with procs := k'.procs } := by
    refine of_move (.procs _ fun i => ?_)
    obtain ⟨fds, he⟩ := h.procs i
    rw [he]
    exact .other _ _ _ _ _
  exact hprocs.tail (.other h.tasks rfl h.current h.gSpawning fun he => h.schedulingEnabled.trans he)

/-! ### Signals -/

/-- A signal for a living process, which `SIG_KILL` ends. -/
theorem sendSignal {i signo : ℕ} (hi : (k.procs i).alive = true) (hE : signo = sigKill → E.ends i) :
    Moves E k (sendSignal k i signo) := by
  have hreport : ∀ k₁ : Kernel, Moves E k₁ (k₁.setProc i fun p => { p with stoppedReported := false }) :=
    fun k₁ => setField fun _ => .other _ _ _ _ _
  unfold LighthOS.sendSignal
  simp only
  by_cases hkill : signo = sigKill
  · rw [if_pos hkill]
    exact of_move (.ends _ (hE hkill) hi fun p => ⟨p.exitCode, rfl⟩)
  by_cases hstop : signo = sigStop
  · rw [if_neg hkill, if_pos hstop]
    exact (of_move (.state hi (Or.inr rfl))).trans (hreport _)
  by_cases hcont : signo = sigCont
  · rw [if_neg hkill, if_neg hstop, if_pos hcont]
    split_ifs
    · exact (of_move (.state hi (Or.inl rfl))).trans (hreport _)
    · exact hreport k
  · rw [if_neg hkill, if_neg hstop, if_neg hcont]
    exact of_move (.pend signo hi)

/-- **`signal_group`**: `SIG_KILL` ends the living processes of the group. -/
theorem signalGroup (k : Kernel) (pgid signo : ℕ) :
    Moves ⟨fun i => signo = sigKill ∧ InGroup k pgid i, fun _ => False⟩ k (signalGroup k pgid signo) :=
  signalGroup_rec (refl k) fun _ _ hm hg ha => hm.trans (sendSignal ha fun hkill => ⟨hkill, hg⟩)

theorem processKill (k : Kernel) (pid signo : ℤ) :
    Moves ⟨Killed k pid signo, fun _ => False⟩ k (processKill k pid signo).2 :=
  processKill_rec (refl k) fun _ _ hm ha hE => hm.trans (sendSignal ha hE)

theorem processTickAlarms (k : Kernel) : Moves E k (processTickAlarms k) := by
  refine List.foldlRecOn (motive := fun k₁ => Moves E k k₁) _ _ (refl k) fun k₁ h i _ => h.trans ?_
  unfold tickAlarm
  simp only
  by_cases hc : ((k₁.procs i).alive && decide (0 < (k₁.procs i).alarmTicks)) = true
  · rw [if_pos hc]
    simp only [Bool.and_eq_true] at hc
    have htick : Moves E k₁ (k₁.setProc i fun p => { p with alarmTicks := p.alarmTicks - 1 }) :=
      setField fun _ => .other _ _ _ _ _
    by_cases ht : (k₁.procs i).alarmTicks = 1
    · rw [if_pos ht]
      have hp : Move E (k₁.setProc i fun p => { p with alarmTicks := p.alarmTicks - 1 }) _ :=
        .pend (i := i) sigAlrm (by simpa using hc.1)
      simp only [pendSignal, Kernel.setProc_procs, if_true] at hp
      exact htick.tail hp
    · rw [if_neg ht]
      exact htick
  · rw [if_neg hc]
    exact refl k₁

/-- **The delivery of a signal** takes it, and ends the process or starts its handler. -/
theorem deliver (h : processDeliverPendingSignals k = some k') :
    Moves ⟨fun i => processCurrent k = some i ∧ Doomed (k.procs i), fun _ => False⟩ k k' := by
  rcases deliver_cases h with ⟨rfl, -⟩ | ⟨regs, i, signo, hdue, hd⟩
  · exact refl _
  obtain ⟨-, halive, -⟩ := processCurrent_eq_some hdue.current
  have hpend := nextSignal_spec hdue.next
  have htake : Moves ⟨fun i => processCurrent k = some i ∧ Doomed (k.procs i), fun _ => False⟩ k
      (takeSignal k i signo) := by
    refine setField fun p => ⟨rfl, rfl, rfl, rfl, rfl, Or.inl rfl, fun s hs => ?_, rfl, rfl, rfl, rfl, rfl⟩
    simp only [Function.update_apply] at hs
    split_ifs at hs
    exact hs
  have hcur : processCurrent (takeSignal k i signo) = some i :=
    (processCurrent_setProc k i (by exact fun _ => ⟨rfl, rfl⟩)).trans hdue.current
  have hsave := htake.tail (.handle (fun p => { p with sigSavedRegs := some regs, sigDelivering := true }) hcur
    fun p => ⟨_, _, rfl, Or.inr ⟨regs, hdue.frame, rfl⟩⟩)
  have hcur' : processCurrent (saveRegs (takeSignal k i signo) i regs) = some i :=
    (processCurrent_setProc _ i (by exact fun _ => ⟨rfl, rfl⟩)).trans hcur
  cases hd with
  | ended hdefault hterm =>
      have hend := htake.tail (.ends (i := i) (fun p => { p with exitCode := 128 + signo, alive := false })
        ⟨hdue.current, signo, hpend.1, hpend.2, hdefault, hterm⟩ (by simpa [takeSignal] using halive)
        fun p => ⟨_, rfl⟩)
      simpa [takeSignal] using hend
  | ignored => exact htake
  | refused =>
      exact (hsave.tail (.handle (fun p => { p with sigDelivering := false }) hcur'
        fun p => ⟨_, _, rfl, Or.inl rfl⟩)).tail (.other rfl rfl rfl rfl id)
  | entered =>
      refine (hsave.tail (.frame _ ?_ (Or.inr ⟨i, hcur', Or.inl ⟨signo, ?_⟩⟩))).tail (.other rfl rfl rfl rfl id)
      · rw [Kernel.setProc_tasks, takeSignal, Kernel.setProc_tasks, Kernel.setProc_current,
          Kernel.setProc_current, hdue.frame]
        rfl
      · simp [takeSignal]

/-- **`schedule`** may end a process that is doomed. -/
theorem schedule (h : schedule k = some k') :
    Moves ⟨fun i => (k.procs i).alive = true ∧ Doomed (k.procs i), fun _ => False⟩ k k' := by
  unfold LighthOS.schedule at h
  split_ifs at h with he
  · cases h
    exact refl k
  · obtain ⟨k₁, hswitch, hdeliver⟩ := Option.bind_eq_some_iff.1 h
    refine (of_move (.switch (by simpa using he) hswitch)).trans ((deliver hdeliver).widen fun i hi => ?_)
    rw [(switchTask_outside hswitch).1.procs] at hi
    have halive := (processCurrent_eq_some hi.1).2.1
    rw [(switchTask_outside hswitch).1.procs] at halive
    exact ⟨halive, hi.2⟩

theorem processSigreturn (hu : (k.tasks k.current).frame.isUser = true) :
    Moves E k (processSigreturn k) := by
  unfold LighthOS.processSigreturn
  split
  · exact refl k
  · next i hi =>
      split
      · next regs hdel hsaved =>
          exact (of_move (.frame regs hu (Or.inr ⟨i, hi, Or.inr hsaved⟩))).tail
            (.handle _ hi fun p => ⟨_, _, rfl, Or.inl rfl⟩)
      · exact refl k

/-! ### The life of a process -/

/-- **`process_exit`** gives back the pipe ends, ends its process and marks dead ones. -/
theorem exitCurrent (k : Kernel) (code : ℤ) :
    Moves ⟨fun i => processCurrent k = some i, fun _ => False⟩ k (exitCurrent k code) := by
  unfold LighthOS.exitCurrent
  split
  · exact refl k
  next i hi =>
  obtain ⟨-, halive, -⟩ := processCurrent_eq_some hi
  have ho := OutsideFds.dropEnds k i fdMax
  refine (outsideFds ho).trans ?_
  simp only
  generalize dropEnds k i fdMax = k₁ at ho ⊢
  have halive₁ : (k₁.procs i).alive = true := by
    obtain ⟨fds, he⟩ := ho.procs i
    rw [he]
    exact halive
  have hend : Moves ⟨fun j => processCurrent k = some j, fun _ => False⟩ k₁ ((k₁.setProc i fun p =>
      { p with exitCode := code, alive := false }).setTaskState (k₁.procs i).task .dead) :=
    of_move (.ends _ hi halive₁ fun p => ⟨_, rfl⟩)
  refine (hend.tail (.reap (exitProcs k₁.procs i code) fun l => ?_)).tail (.other ?_ ?_ ?_ ?_ ?_)
  · rw [Kernel.setTaskState_procs]
    exact exitProcs_reaps k₁.procs i code l
  all_goals cases (k₁.procs i).task <;> first | rfl | exact id

theorem processWaitpid (k : Kernel) (pid : ℕ) : Moves E k (processWaitpid k pid) := by
  unfold LighthOS.processWaitpid
  split
  · exact refl k
  next i _ =>
  split_ifs with hdead
  · refine of_move (.reap _ fun j => ?_)
    by_cases hj : j = i
    · subst hj
      rw [Function.update_self]
      exact Or.inr ⟨by simpa using hdead, rfl⟩
    · exact Or.inl (Function.update_of_ne hj _ _)
  · exact setField fun _ => .other _ _ _ _ _
  · exact refl k

theorem processExecve {name : List UInt8} {elf : Image} {files : List UInt8 → Option Image}
    {argv envp : Option (List (List UInt8))} {r : Bool} (hname : name ≠ [])
    (hu : (k.tasks k.current).frame.isUser = true) (hE : ∀ a, EntryOf elf files a → E.starts a)
    (h : processExecve k name elf files argv envp = some (r, k')) : Moves E k k' := by
  rcases processExecve_cases h with ⟨-, vm, rfl⟩ | ⟨-, i, vm, entry, rsp, -, hentry, rfl⟩
  · exact of_move (.other rfl rfl rfl rfl id)
  · have hvm : Moves E k { k with vm := vm } := of_move (.other rfl rfl rfl rfl id)
    have hset : Moves E { k with vm := vm }
        (Kernel.setProc { k with vm := vm } i fun p => { p with name := name.take 31 }) :=
      setField fun _ => ⟨rfl, rfl, rfl, rfl, rfl, Or.inr (by simpa using hname), fun _ h => h, rfl,
        rfl, rfl, rfl, rfl⟩
    exact (hvm.trans hset).tail (.frame _ hu (Or.inl (hE _ hentry)))

end Moves

/-- The processes that a step may end. -/
def KernelOp.ends (k : Kernel) : KernelOp → ℕ → Prop
  | .kill pid signo, i => Killed k pid signo i
  | .deliver, i => processCurrent k = some i ∧ Doomed (k.procs i)
  | .schedule, i => (k.procs i).alive = true ∧ Doomed (k.procs i)
  | .fault _, i | .exit _, i => processCurrent k = some i ∨ (k.procs i).alive = true ∧ Doomed (k.procs i)
  | _, _ => False

/-- The addresses that a step brings in: the entry points of a program, a signal handler,
the place where user code is interrupted. -/
def KernelOp.starts : KernelOp → ℕ → Prop
  | .execve _ elf files _ _, a => EntryOf elf files a
  | .signal _ handler, a => a = handler
  | .userRun regs, a => a = regs.rip
  | _, _ => False

/-- How far a step can reach. -/
def KernelOp.scope (k : Kernel) (op : KernelOp) : Scope := ⟨op.ends k, op.starts⟩

/-- The steps that make no task and do not block one. -/
def KernelOp.isMoves : KernelOp → Bool
  | .spawn _ | .fork _ | .pause => false
  | _ => true

/-- Who is doomed after `process_exit` was so before. -/
theorem exitCurrent_doomed {k : Kernel} {code : ℤ} {i : ℕ}
    (h : ((exitCurrent k code).procs i).alive = true ∧ Doomed ((exitCurrent k code).procs i)) :
    (k.procs i).alive = true ∧ Doomed (k.procs i) ∧ processCurrent k ≠ some i := by
  unfold exitCurrent at h
  cases hc : processCurrent k with
  | none =>
      simp only [hc] at h
      exact ⟨h.1, h.2, by simp⟩
  | some c =>
      simp only [hc, Kernel.setTaskState_procs] at h
      have he : exitProcs (dropEnds k c fdMax).procs c code i = Function.update (dropEnds k c fdMax).procs c
          { (dropEnds k c fdMax).procs c with exitCode := code, alive := false } i := by
        rcases exitProcs_reaps (dropEnds k c fdMax).procs c code i with he | ⟨hdead, he⟩
        · exact he
        · rw [he] at h
          exact absurd (hdead.symm.trans h.1) Bool.false_ne_true
      rw [he] at h
      have hic : i ≠ c := by
        rintro rfl
        rw [Function.update_self] at h
        cases h.1
      rw [Function.update_of_ne hic] at h
      obtain ⟨fds, he⟩ := (OutsideFds.dropEnds k c fdMax).procs i
      rw [he] at h
      exact ⟨h.1, h.2, fun he => hic (Option.some.inj he).symm⟩

namespace Moves

variable {k k' : Kernel}

/-- A fault ends the current process, if there is one. -/
theorem userFaultTerminate {signo : ℕ} (h : userFaultTerminate k signo = some k') :
    Moves (KernelOp.scope k (.fault signo)) k k' := by
  unfold LighthOS.userFaultTerminate at h
  split at h
  · exact (schedule h).widen fun i hi => Or.inr hi
  · next c hc =>
      refine (of_move (.ends _ (Or.inl hc) (processCurrent_eq_some hc).2.1 fun p => ⟨_, rfl⟩)).trans
        ((schedule h).widen fun i hi => Or.inr ?_)
      rw [Kernel.setTaskState_procs, Kernel.setProc_procs] at hi
      split_ifs at hi
      · cases hi.1
      · exact hi

theorem processSignal {E : Scope} (signo : ℤ) {handler : ℕ} (hE : E.starts handler) :
    Moves E k (processSignal k signo handler) := by
  unfold LighthOS.processSignal
  split_ifs
  · exact refl k
  · split
    · exact refl k
    · next i hi => exact of_move (.disposition _ handler hE hi)

/-- **Every step** is a sequence of moves, but for those that make a task and for the
block of `SYS_PAUSE`. -/
theorem kernelRun {op : KernelOp} (hop : op.isMoves = true) (h : kernelRun k op = some k') :
    Moves (op.scope k) k k' := by
  obtain ⟨hposs, h⟩ := kernelRun_eq_some.1 h
  have hvm : ∀ {E : Scope} vm, Moves E k { k with vm := vm } := fun vm =>
    of_move (.other rfl rfl rfl rfl id)
  cases op with
  | enableScheduling =>
      cases h
      exact of_move (.other rfl rfl rfl rfl fun _ => rfl)
  | schedule => exact (schedule h).widen fun _ hi => hi
  | tickAlarms =>
      have h : LighthOS.processTickAlarms k = k' := Option.some.inj h
      exact h ▸ processTickAlarms k
  | deliver => exact (deliver h).widen fun _ hi => hi
  | fault signo => exact userFaultTerminate h
  | killForeground =>
      cases h
      exact (signalGroup _ _ _).widen fun i hi => absurd hi.1 (by decide)
  | stopForeground =>
      cases h
      exact (signalGroup _ _ _).widen fun i hi => absurd hi.1 (by decide)
  | trampoline => exact of_move (.trampoline h)
  | spawn a => cases hop
  | waitpid pid =>
      cases h
      exact processWaitpid k pid
  | fork stackBase => cases hop
  | execve name elf files argv envp =>
      obtain ⟨⟨r, k₁⟩, hexec, rfl⟩ := Option.map_eq_some_iff.1 h
      simp only [KernelOp.possible, Bool.and_eq_true, bne_iff_ne] at hposs
      exact processExecve hposs.2 hposs.1 (fun _ ha => ha) hexec
  | exit code =>
      refine ((exitCurrent k code).widen fun i hi => Or.inl hi).trans
        ((schedule h).widen fun i hi => Or.inr ?_)
      obtain ⟨halive, hdoomed, -⟩ := exitCurrent_doomed hi
      exact ⟨halive, hdoomed⟩
  | kill pid signo =>
      cases h
      exact (processKill k pid signo).widen fun _ hi => hi
  | pause => cases hop
  | signal signo handler =>
      cases h
      exact processSignal signo rfl
  | sigreturn =>
      cases h
      exact processSigreturn hposs
  | alarm secs =>
      cases h
      unfold processSetAlarm
      split
      · exact refl k
      · exact setField fun _ => .other _ _ _ _ _
  | setpgid pid pgid =>
      cases h
      unfold processSetpgid
      split
      · exact refl k
      · exact setField fun _ => .other _ _ _ _ _
  | setForeground pgid =>
      cases h
      exact of_move (.other rfl rfl rfl rfl id)
  | pipe addr =>
      cases h
      exact outsideFds (.fdPipe k addr)
  | dup2 oldfd newfd =>
      cases h
      exact outsideFds (.fdDup2 k oldfd newfd)
  | close fd =>
      cases h
      exact outsideFds (.fdClose k fd)
  | mmapAnon addr len prot =>
      obtain ⟨r, -, rfl⟩ := Option.map_eq_some_iff.1 h
      exact hvm _
  | mprotect addr len prot =>
      obtain ⟨r, -, rfl⟩ := Option.map_eq_some_iff.1 h
      exact hvm _
  | vgaGfx va =>
      obtain ⟨r, -, rfl⟩ := Option.map_eq_some_iff.1 h
      exact hvm _
  | userRun regs =>
      cases h
      simp only [KernelOp.possible, Bool.and_eq_true] at hposs
      exact of_move (.frame regs hposs.1 (Or.inl rfl))

end Moves

/-! ### What moves do to the tasks -/

section Tasks

variable {k k' : Kernel} {E : Scope}

theorem setFrame_state (k : Kernel) (u : ℕ) (fr : Frame) (t : ℕ) :
    ((k.setTask u fun x => { x with frame := fr }).tasks t).state = (k.tasks t).state := by
  rw [Kernel.setTask_tasks]
  split_ifs with h
  · rw [h]
  · rfl

/-- **The state of a task**: a move blocks none, and it ends only those of the processes
it ends. -/
theorem Move.state_cases (hm : Move E k k') (t : ℕ) :
    (k'.tasks t).state = (k.tasks t).state ∨
      ((k'.tasks t).state ≠ .blocked ∧ (k'.tasks t).state ≠ .dead) ∨
      (k'.tasks t).state = .dead ∧ ∃ i, E.ends i ∧ (k.procs i).task = some t := by
  cases hm with
  | other tasks => exact Or.inl (by rw [tasks])
  | procs => exact Or.inl rfl
  | reap => exact Or.inl rfl
  | handle => exact Or.inl rfl
  | disposition => exact Or.inl rfl
  | @pend i signo alive =>
      obtain ⟨o, -, he⟩ := pendSignal_eq k i signo
      rw [he, Kernel.setTaskState_state, Kernel.setProc_tasks]
      split_ifs
      · exact Or.inr (Or.inl (by simp))
      · exact Or.inl rfl
  | state alive st_eq =>
      rw [Kernel.setTaskState_state]
      split_ifs
      · rcases st_eq with rfl | rfl
        · exact Or.inr (Or.inl (by simp))
        · exact Or.inr (Or.inl (by simp))
      · exact Or.inl rfl
  | frame regs => exact Or.inl (setFrame_state k _ _ t)
  | trampoline hs =>
      obtain ⟨fr, g, rfl⟩ := spawnTrampoline_eq hs
      exact Or.inl (setFrame_state k _ _ t)
  | ends f mem =>
      rw [Kernel.setTaskState_state, Kernel.setProc_tasks]
      split_ifs with ht
      · exact Or.inr (Or.inr ⟨rfl, _, mem, ht⟩)
      · exact Or.inl rfl
  | switch _ hs =>
      obtain ⟨st, he, hst⟩ := switchTask_tasks hs t
      rw [he]
      rcases hst with rfl | rfl | rfl
      · exact Or.inl rfl
      · exact Or.inr (Or.inl (by simp))
      · exact Or.inr (Or.inl (by simp))

/-- Only `schedule` changes the current task. -/
theorem Move.current_cases (hm : Move E k k') :
    k'.current = k.current ∨ k.schedulingEnabled = true ∧ switchTask k = some k' := by
  cases hm with
  | other _ _ current => exact Or.inl current
  | procs => exact Or.inl rfl
  | reap => exact Or.inl rfl
  | handle => exact Or.inl rfl
  | disposition => exact Or.inl rfl
  | @pend i signo alive =>
      obtain ⟨o, -, he⟩ := pendSignal_eq k i signo
      exact Or.inl (by simp [he])
  | state => exact Or.inl (Kernel.setTaskState_current _ _ _)
  | frame => exact Or.inl rfl
  | trampoline hs =>
      obtain ⟨fr, g, rfl⟩ := spawnTrampoline_eq hs
      exact Or.inl rfl
  | ends => exact Or.inl (Kernel.setTaskState_current _ _ _)
  | switch enabled hs => exact Or.inr ⟨enabled, hs⟩

end Tasks

/-- `SYS_PAUSE` blocks the current task and switches to another one. -/
theorem sysPause_cases {k k' : Kernel} (h : sysPause k = some k') :
    k' = k ∨ ∃ i, processCurrent k = some i ∧
      schedule (k.setTaskState (k.procs i).task .blocked) = some k' := by
  unfold sysPause at h
  split at h
  · cases h
    exact Or.inl rfl
  · next i hi =>
      split at h
      · cases h
        exact Or.inl rfl
      · exact Or.inr ⟨i, hi, h⟩

/-! ### New processes -/

/-- The processes change, and nothing else that the tables depend on. -/
structure OutsideProcs (k k' : Kernel) : Prop where
  tasks : k'.tasks = k.tasks
  current : k'.current = k.current
  gSpawning : k'.gSpawning = k.gSpawning
  enabled : k'.schedulingEnabled = k.schedulingEnabled

/-- The process `i` is new: it has what it inherits, and no task yet. -/
structure Conceived (k : Kernel) (i : ℕ) (k' : Kernel) : Prop where
  outside : OutsideProcs k k'
  free : freeProc k.procs = some i
  child : ∃ name ppid pgid root cwd fds, k'.procs i = { newProcess k.nextPid name with
    parentPid := ppid, pgid := pgid, root := root, cwd := cwd, fds := fds }
  old : ∀ j, j ≠ i → k'.procs j = reapedProcs k.procs j

/-- **`process_alloc`**, and what is set in the new process before it has a task. -/
theorem Conceived.of_alloc {k k₁ k' : Kernel} {name : List UInt8} {i : ℕ} {f : Process → Process}
    (ha : processAlloc k name = (some i, k₁))
    (hf : ∀ p, ∃ ppid pgid root cwd fds, f p =
      { p with parentPid := ppid, pgid := pgid, root := root, cwd := cwd, fds := fds })
    (ho : OutsideProcs k₁ k') (hp : k'.procs = (k₁.setProc i f).procs) :
    Conceived k i k' ∧ (k'.procs i).name = name.take 31 := by
  obtain ⟨hr, -, htasks, hcur, hg, he, -, hprocs⟩ := processAlloc_spec ha
  obtain ⟨ppid, pgid, root, cwd, fds, hfi⟩ := hf (newProcess k.nextPid name)
  have hi : k'.procs i = f (newProcess k.nextPid name) := by
    rw [hp, Kernel.setProc_procs, if_pos rfl, hprocs]
    simp only [Function.update_self]
  refine ⟨⟨⟨ho.tasks.trans htasks, ho.current.trans hcur, ho.gSpawning.trans hg, ho.enabled.trans he⟩,
    hr.symm, ⟨name, ppid, pgid, root, cwd, fds, hi.trans hfi⟩, fun j hj => ?_⟩, ?_⟩
  · rw [hp, Kernel.setProc_procs, if_neg hj, hprocs]
    exact Function.update_of_ne hj _ _
  · rw [hi, hfi]
    rfl

theorem Conceived.setVm {k k' : Kernel} {i : ℕ} (h : Conceived k i k') (vm : Vm) :
    Conceived k i { k' with vm := vm } :=
  ⟨⟨h.outside.tasks, h.outside.current, h.outside.gSpawning, h.outside.enabled⟩, h.free, h.child, h.old⟩

/-- A new process has no task. -/
theorem Conceived.task {k k' : Kernel} {i : ℕ} (h : Conceived k i k') : (k'.procs i).task = none := by
  obtain ⟨_, _, _, _, _, _, he⟩ := h.child
  rw [he]
  rfl

/-! ### New tasks -/

/-- The task `t`, in the frame `fr`, for the process `i`. -/
def launch (k : Kernel) (i t pml4 : ℕ) (fr : Frame) (f : Process → Process) : Kernel :=
  taskInsertReady ((k.setTask t fun x => { x with pml4 := pml4, frame := fr }).setProc i f) t

theorem launch_tasks (k : Kernel) (i t pml4 : ℕ) (fr : Frame) (f : Process → Process) (u : ℕ) :
    ∃ next, (launch k i t pml4 fr f).tasks u
      = { if u = t then { k.tasks t with pml4 := pml4, frame := fr } else k.tasks u with next := next } := by
  unfold launch
  rw [taskInsertReady_tasks, Kernel.setProc_tasks, Kernel.setTask_tasks]
  exact ⟨_, rfl⟩

theorem launch_procs (k : Kernel) (i t pml4 : ℕ) (fr : Frame) (f : Process → Process) (j : ℕ) :
    (launch k i t pml4 fr f).procs j = if j = i then f (k.procs i) else k.procs j := by
  unfold launch
  rw [(taskInsertReady_outside _ t).procs, Kernel.setProc_procs, Kernel.setTask_procs]

theorem launch_state (k : Kernel) (i t pml4 : ℕ) (fr : Frame) (f : Process → Process) (u : ℕ) :
    ((launch k i t pml4 fr f).tasks u).state = (k.tasks u).state := by
  obtain ⟨next, he⟩ := launch_tasks k i t pml4 fr f u
  rw [he]
  split_ifs with hu
  · rw [hu]
  · rfl

/-- How `process_fork` and `process_spawn_from_memory` end for the process `i`, with the pid that
they return; user code starts at an address of `S`. -/
inductive Born (S : ℕ → Prop) (k : Kernel) (name : List UInt8) (i : ℕ) : Option ℕ → Kernel → Prop
  /-- There is no address space for it, or no program. -/
  | gaveUp {vm : Vm} : Born S k name i none (abandon { k with vm := vm } i)
  | failed {stackBase : ℕ} {k₁ : Kernel} {vm : Vm} (h : taskAlloc k name stackBase = some (none, k₁)) :
      Born S k name i none (abandon { k₁ with vm := vm } i)
  | spawned {stackBase t pml4 entry rsp : ℕ} {k₁ : Kernel}
      (h : taskAlloc k name stackBase = some (some t, k₁)) (start : S entry) :
      Born S k name i (some (k₁.procs i).pid) (launch { k₁ with gSpawning := some i } i t pml4 (.trampoline .entry)
        fun p => { p with task := some t, spawnEntry := entry, spawnRsp := rsp })
  | forked {stackBase t pml4 : ℕ} {k₁ : Kernel} (h : taskAlloc k name stackBase = some (some t, k₁)) :
      Born S k name i (some (k₁.procs i).pid) (launch k₁ i t pml4 (childFrame (k.tasks k.current).frame)
        fun p => { p with task := some t })

/-- How `process_fork` and `process_spawn_from_memory` end. -/
inductive Births (S : ℕ → Prop) (k : Kernel) (name : List UInt8) : Option ℕ → Kernel → Prop
  /-- There is no slot for a process. -/
  | full {k' : Kernel} (h : OutsideProcs k k') (procs : k'.procs = reapedProcs k.procs) : Births S k name none k'
  | born {i : ℕ} {k₁ k' : Kernel} {r : Option ℕ} (h : Conceived k i k₁)
      (named : name ≠ [] → (k₁.procs i).name ≠ []) (hb : Born S k₁ name i r k') : Births S k name r k'

section Births

variable {S : ℕ → Prop} {k k₁ k' : Kernel} {name : List UInt8} {i : ℕ} {r : Option ℕ}

/-- **What becomes of the process**, and of no other one. -/
theorem Born.procs (h : Born S k name i r k') :
    (∃ task entry rsp, ∀ j, k'.procs j = if j = i then { k.procs i with
      alive := (k.procs i).alive && r.isSome, task := task, spawnEntry := entry, spawnRsp := rsp } else k.procs j) ∧
      ∀ pid ∈ r, (k.procs i).pid = pid := by
  have hgone : ∀ k₁ : Kernel, k₁.procs = k.procs → ∀ j, (abandon k₁ i).procs j = if j = i then
      { k.procs i with alive := (k.procs i).alive && false } else k.procs j := fun k₁ hp j => by
    rw [abandon, Kernel.setProc_procs, hp, Bool.and_false]
  cases h with
  | gaveUp => exact ⟨⟨_, _, _, hgone _ rfl⟩, by simp⟩
  | failed ha => exact ⟨⟨_, _, _, hgone _ (taskAlloc_outside ha).1.procs⟩, by simp⟩
  | @spawned _ t _ entry rsp k₁ ha =>
      rw [← (taskAlloc_outside ha).1.procs]
      exact ⟨⟨some t, entry, rsp, fun j => by simp [launch_procs]⟩, by simp⟩
  | @forked _ t _ k₁ ha =>
      rw [← (taskAlloc_outside ha).1.procs]
      exact ⟨⟨some t, _, _, fun j => by rw [launch_procs, Option.isSome_some, Bool.and_true]⟩, by simp⟩

theorem spawnInto_born {a : SpawnArgs} (h : spawnInto k i a = some (r, k')) :
    ∃ vm, Born (EntryOf a.elf a.files) { k with vm := vm } a.name i r k' := by
  unfold spawnInto at h
  obtain ⟨⟨g, vm⟩, -, h⟩ := Option.bind_eq_some_iff.1 h
  simp only at h
  split_ifs at h
  · cases h
    exact ⟨vm, .gaveUp⟩
  obtain ⟨⟨prog, vm₂⟩, hload, h⟩ := Option.bind_eq_some_iff.1 h
  cases prog with
  | none =>
      cases h
      exact ⟨vm₂, .gaveUp⟩
  | some p =>
      obtain ⟨⟨t, k₃⟩, ha, h⟩ := Option.map_eq_some_iff.1 h
      cases t with
      | none =>
          cases h
          exact ⟨vm₂, .failed ha⟩
      | some t =>
          cases h
          exact ⟨vm₂, .spawned ha (loadProgram_entry hload)⟩

theorem forkInto_born {stackBase : ℕ} (h : forkInto k i stackBase = some (r, k')) :
    ∃ vm, Born S { k with vm := vm } (k.procs i).name i r k' := by
  unfold forkInto at h
  obtain ⟨⟨g, vm⟩, -, h⟩ := Option.bind_eq_some_iff.1 h
  simp only at h
  split_ifs at h
  · cases h
    exact ⟨vm, .gaveUp⟩
  obtain ⟨⟨ok, vm₂⟩, -, h⟩ := Option.bind_eq_some_iff.1 h
  cases ok with
  | false =>
      cases h
      exact ⟨vm₂, .gaveUp⟩
  | true =>
      obtain ⟨⟨t, k₃⟩, ha, h⟩ := Option.map_eq_some_iff.1 h
      cases t with
      | none =>
          cases h
          exact ⟨vm₂, .failed ha⟩
      | some t =>
          simp only [Kernel.setProc_procs, if_true, Prod.mk.injEq] at h
          obtain ⟨rfl, rfl⟩ := h
          exact ⟨vm₂, .forked ha⟩

theorem Births.of_full {name' : List UInt8} (ha : processAlloc k name' = (none, k')) : Births S k name none k' := by
  obtain ⟨-, -, htasks, hcur, hg, he, -, hprocs⟩ := processAlloc_spec ha
  exact .full ⟨htasks, hcur, hg, he⟩ hprocs

/-- **`process_spawn_from_memory`**. -/
theorem Births.processSpawn {a : SpawnArgs} (h : processSpawnFromMemory k a = some (r, k')) :
    Births (EntryOf a.elf a.files) k a.name r k' := by
  unfold processSpawnFromMemory at h
  split at h
  · next k₁ ha =>
      cases h
      exact of_full ha
  next i k₁ ha =>
  obtain ⟨vm, hb⟩ := spawnInto_born h
  have hout : OutsideProcs k₁ (k₁.setProc i fun p => { p with parentPid := currentPid k₁ }) :=
    ⟨rfl, rfl, rfl, rfl⟩
  obtain ⟨hc, hn⟩ := Conceived.of_alloc (f := fun p => { p with parentPid := currentPid k₁ }) ha
    (fun p => ⟨_, p.pgid, p.root, p.cwd, p.fds, rfl⟩) hout rfl
  exact .born (hc.setVm vm) (fun hname => by rw [hn]; simpa using hname) hb

/-- **`process_fork`**: the child has a name when the parent has one. -/
theorem Births.processFork {stackBase : ℕ} (h : processFork k stackBase = some (r, k')) :
    (processCurrent k = none ∧ r = none ∧ k' = k) ∨ ∃ parent name, processCurrent k = some parent ∧
      ((k.procs parent).name ≠ [] → name ≠ []) ∧ Births S k name r k' := by
  unfold LighthOS.processFork at h
  split at h
  · next hp =>
      cases h
      exact Or.inl ⟨hp, rfl, rfl⟩
  next parent hp =>
  refine Or.inr ⟨parent, ?_⟩
  split at h
  · next k₁ ha =>
      cases h
      exact ⟨[0], hp, by simp, of_full ha⟩
  next i k₁ ha =>
  have ho := OutsideFds.countEnds (k₁.setProc i (inheritFrom (k₁.procs parent))) i fdMax
  obtain ⟨vm, hb⟩ := forkInto_born h
  obtain ⟨hc, hn⟩ := Conceived.of_alloc (f := inheritFrom (k₁.procs parent)) ha
    (fun p => ⟨_, _, _, _, _, rfl⟩) ⟨ho.tasks, ho.current, ho.gSpawning, ho.schedulingEnabled⟩
    (countEnds_procs _ _ _)
  refine ⟨_, hp, fun hname => ?_, .born (hc.setVm vm) id hb⟩
  rw [hn]
  simpa using hname

/-- **Every step**: a sequence of moves, a new process, or the block of `SYS_PAUSE`. -/
theorem kernelRun_cases {op : KernelOp} (h : kernelRun k op = some k') :
    Moves (op.scope k) k k' ∨
      (∃ a r, op = .spawn a ∧ Births (EntryOf a.elf a.files) k a.name r k') ∨
      (∃ stackBase i name r, op = .fork stackBase ∧ processCurrent k = some i ∧
        ((k.procs i).name ≠ [] → name ≠ []) ∧ Births (fun _ => False) k name r k') ∨
      ∃ i, op = .pause ∧ (k.tasks k.current).frame.isUser = true ∧ processCurrent k = some i ∧
        schedule (k.setTaskState (k.procs i).task .blocked) = some k' := by
  cases hmoves : op.isMoves with
  | true => exact Or.inl (.kernelRun hmoves h)
  | false =>
      obtain ⟨hposs, h⟩ := kernelRun_eq_some.1 h
      cases op with
      | spawn a =>
          obtain ⟨⟨r, k₁⟩, hspawn, rfl⟩ := Option.map_eq_some_iff.1 h
          exact Or.inr (Or.inl ⟨a, r, rfl, .processSpawn hspawn⟩)
      | fork stackBase =>
          obtain ⟨⟨r, k₁⟩, hfork, rfl⟩ := Option.map_eq_some_iff.1 h
          rcases Births.processFork hfork with ⟨-, -, rfl⟩ | ⟨i, name, hi, hname, hb⟩
          · exact Or.inl (.refl _)
          · exact Or.inr (Or.inr (Or.inl ⟨stackBase, i, name, r, rfl, hi, hname, hb⟩))
      | pause =>
          rcases sysPause_cases h with rfl | ⟨i, hi, hs⟩
          · exact Or.inl (.refl _)
          · exact Or.inr (Or.inr (Or.inr ⟨i, rfl, hposs, hi, hs⟩))
      | _ => cases hmoves

end Births

end LighthOS
