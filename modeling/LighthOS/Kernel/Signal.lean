/-
# Signals and scheduling

The signal functions of `src/kernel/process.c`, `schedule` of `src/kernel/task.c`,
which ends in the delivery of a signal, and `user_fault_terminate` of
`src/kernel/isr.c`.  `sig_pending` is a function of the signal number.
-/

import LighthOS.Kernel.Task
import LighthOS.Mm.UserSpace

namespace LighthOS

/-- What `signal_group` and `process_kill` do to the process `i` for the signal
`signo`. -/
def sendSignal (k : Kernel) (i signo : ℕ) : Kernel :=
  let task := (k.procs i).task
  if signo = sigKill then
    (k.setProc i fun p => { p with alive := false }).setTaskState task .dead
  else if signo = sigStop then
    (k.setTaskState task .stopped).setProc i fun p => { p with stoppedReported := false }
  else if signo = sigCont then
    let k := if task.any fun t => (k.tasks t).state = .stopped then k.setTaskState task .ready else k
    k.setProc i fun p => { p with stoppedReported := false }
  else
    let k := k.setProc i fun p => { p with sigPending := Function.update p.sigPending signo true }
    if task.any fun t => (k.tasks t).state = .blocked then k.setTaskState task .ready else k

/-- `signal_group`. -/
def signalGroup (k : Kernel) (pgid signo : ℕ) : Kernel :=
  if pgid = 0 then k
  else (List.range processMax).foldl (fun k i =>
    if (k.procs i).alive && (k.procs i).pgid == pgid && (k.procs i).pid != 0 then sendSignal k i signo
    else k) k

/-- `process_kill`: whether it succeeded (`0` against `-1`). -/
def processKill (k : Kernel) (pid signo : ℤ) : Bool × Kernel :=
  if signo ≤ 0 ∨ (nsig : ℤ) ≤ signo then (false, k)
  else if pid < 0 then (true, signalGroup k (-pid).toNat signo.toNat)
  else
    match processGet k pid.toNat with
    | none => (false, k)
    | some i => (true, sendSignal k i signo.toNat)

/-- `process_kill_foreground`. -/
def processKillForeground (k : Kernel) : Kernel := signalGroup k k.foregroundPgid sigInt

/-- `process_stop_foreground`. -/
def processStopForeground (k : Kernel) : Kernel := signalGroup k k.foregroundPgid sigStop

/-- The body of `process_tick_alarms` for one process. -/
def tickAlarm (k : Kernel) (i : ℕ) : Kernel :=
  let p := k.procs i
  if p.alive && 0 < p.alarmTicks then
    let k := k.setProc i fun p => { p with alarmTicks := p.alarmTicks - 1 }
    if p.alarmTicks = 1 then
      let k := k.setProc i fun p => { p with sigPending := Function.update p.sigPending sigAlrm true }
      if p.task.any fun t => (k.tasks t).state = .blocked then k.setTaskState p.task .ready else k
    else k
  else k

/-- `process_tick_alarms`. -/
def processTickAlarms (k : Kernel) : Kernel := (List.range processMax).foldl tickAlarm k

/-- `process_set_alarm`. -/
def processSetAlarm (k : Kernel) (secs : ℕ) : Kernel :=
  match processCurrent k with
  | none => k
  | some i => k.setProc i fun p => { p with alarmTicks := secs * 100 % 2 ^ 32 }

/-- `process_signal`. -/
def processSignal (k : Kernel) (signo : ℤ) (handler : ℕ) : Kernel :=
  if signo ≤ 0 ∨ (nsig : ℤ) ≤ signo ∨ signo = sigKill ∨ signo = sigStop then k
  else
    match processCurrent k with
    | none => k
    | some i => k.setProc i fun p =>
        { p with sigHandlers := Function.update p.sigHandlers signo.toNat handler }

/-- `process_sigreturn`. -/
def processSigreturn (k : Kernel) : Kernel :=
  match processCurrent k with
  | none => k
  | some i =>
      match (k.procs i).sigDelivering, (k.procs i).sigSavedRegs with
      | true, some regs => (k.setTask k.current fun t => { t with frame := .user regs }).setProc i
          fun p => { p with sigDelivering := false }
      | _, _ => k

/-- `user_push_u64` of a zero, as the delivery of a signal calls it: the store at
`rsp`, which has been lowered already. -/
def userPushZero (s : Vm) (pml4 rsp : ℕ) : Option (Bool × Vm) :=
  if pml4 = 0 then some (false, s) else putUser s pml4 rsp 8 fun _ => 0

/-- The signals whose default action ends the process. -/
def terminates (signo : ℕ) : Bool := signo == sigInt || signo == sigAlrm || signo == sigTerm

/-- `process_deliver_pending_signals`, for the frame of the current task. -/
def processDeliverPendingSignals (k : Kernel) : Option Kernel :=
  match (k.tasks k.current).frame, processCurrent k with
  | .user regs, some i =>
      let p := k.procs i
      match p.sigDelivering, (List.range nsig).find? fun s => 0 < s && p.sigPending s with
      | false, some signo =>
          let k := k.setProc i fun p => { p with sigPending := Function.update p.sigPending signo false }
          let h := p.sigHandlers signo
          if h = 0 then
            if terminates signo then
              some ((k.setProc i fun p => { p with exitCode := 128 + signo, alive := false }).setTaskState
                p.task .dead)
            else some k
          else if h = 1 then some k
          else
            let k := k.setProc i fun p => { p with sigSavedRegs := some regs, sigDelivering := true }
            let rsp := (regs.rsp + 2 ^ 64 - 8) % 2 ^ 64
            match userPushZero k.vm (k.tasks k.current).pml4 rsp with
            | none => none
            | some (false, vm) =>
                some { k.setProc i fun p => { p with sigDelivering := false } with vm := vm }
            | some (true, vm) =>
                some { k.setTask k.current fun t =>
                  { t with frame := .user { regs with rsp := rsp, rip := h, rdi := signo } } with vm := vm }
      | _, _ => some k
  | _, _ => some k

/-- `schedule`. -/
def schedule (k : Kernel) : Option Kernel :=
  if !k.schedulingEnabled then some k else (switchTask k).bind processDeliverPendingSignals

/-- `user_fault_terminate`. -/
def userFaultTerminate (k : Kernel) (signo : ℕ) : Option Kernel :=
  match processCurrent k with
  | none => schedule k
  | some i => schedule ((k.setProc i fun p =>
      { p with exitCode := 128 + signo, alive := false }).setTaskState (k.procs i).task .dead)

/-- `SYS_PAUSE`. -/
def sysPause (k : Kernel) : Option Kernel :=
  match processCurrent k with
  | none => some k
  | some i =>
      match (k.procs i).task with
      | none => some k
      | some _ => schedule (k.setTaskState (k.procs i).task .blocked)

/-- `process_setpgid`. -/
def processSetpgid (k : Kernel) (pid pgid : ℕ) : Kernel :=
  match if pid = 0 then processCurrent k else processGet k pid with
  | none => k
  | some i => k.setProc i fun p => { p with pgid := if pgid = 0 then p.pid else pgid }

/-! ### Whom signals end -/

/-- A process that a pending signal ends by its default action when it is
delivered. -/
def Doomed (p : Process) : Prop :=
  ∃ signo < nsig, p.sigPending signo = true ∧ p.sigHandlers signo = 0 ∧ terminates signo = true

instance (p : Process) : Decidable (Doomed p) :=
  inferInstanceAs (Decidable (∃ signo < nsig, p.sigPending signo = true ∧ p.sigHandlers signo = 0 ∧
    terminates signo = true))

/-- The living processes of a group, as `signal_group` finds them. -/
def InGroup (k : Kernel) (pgid i : ℕ) : Prop :=
  i < processMax ∧ (k.procs i).alive = true ∧ (k.procs i).pgid = pgid ∧ (k.procs i).pid ≠ 0

/-- The processes that `process_kill` ends. -/
def Killed (k : Kernel) (pid signo : ℤ) (i : ℕ) : Prop :=
  signo = sigKill ∧ if pid < 0 then InGroup k (-pid).toNat i else processGet k pid.toNat = some i

theorem Killed.lt {k : Kernel} {pid signo : ℤ} {i : ℕ} (h : Killed k pid signo i) : i < processMax := by
  have hi := h.2
  split_ifs at hi
  · exact hi.1
  · exact (processGet_eq_some hi).1

/-! ### What is done to a process -/

/-- What a signal does to the process that it is sent to. -/
def Process.signalled (p : Process) (signo : ℕ) : Process :=
  if signo = sigKill then { p with alive := false }
  else if signo = sigStop then { p with stoppedReported := false }
  else if signo = sigCont then { p with stoppedReported := false }
  else { p with sigPending := Function.update p.sigPending signo true }

theorem sendSignal_procs (k : Kernel) (i signo j : ℕ) :
    (sendSignal k i signo).procs j = if j = i then (k.procs i).signalled signo else k.procs j := by
  unfold sendSignal Process.signalled
  simp only
  by_cases hj : j = i
  · subst hj
    rw [if_pos rfl]
    split_ifs <;> simp
  · rw [if_neg hj]
    split_ifs <;> simp [hj]

theorem sendSignal_current (k : Kernel) (i signo : ℕ) : (sendSignal k i signo).current = k.current := by
  unfold sendSignal
  simp only
  split_ifs <;> simp

/-- **`signal_group`** sends the signal to the living processes of the group, one after another. -/
theorem signalGroup_rec {motive : Kernel → Prop} {k : Kernel} {pgid signo : ℕ} (hk : motive k)
    (hsend : ∀ k₁ i, motive k₁ → InGroup k pgid i → (k₁.procs i).alive = true → motive (sendSignal k₁ i signo)) :
    motive (signalGroup k pgid signo) := by
  unfold signalGroup
  split_ifs
  · exact hk
  -- the processes ahead in the loop are as they were, but for signals sent to them
  refine (List.foldlRecOn (motive := fun k₁ : Kernel => motive k₁ ∧ ∀ j, (k₁.procs j).pgid = (k.procs j).pgid ∧
    (k₁.procs j).pid = (k.procs j).pid ∧ ((k₁.procs j).alive = true → (k.procs j).alive = true))
    _ _ ⟨hk, fun _ => ⟨rfl, rfl, id⟩⟩ fun k₁ hk₁ i hi => ?_).1
  split_ifs with hc
  · simp only [Bool.and_eq_true, beq_iff_eq, bne_iff_ne] at hc
    obtain ⟨⟨halive, hpgid⟩, hpid⟩ := hc
    obtain ⟨hg, hp, ha⟩ := hk₁.2 i
    refine ⟨hsend k₁ i hk₁.1 ⟨List.mem_range.1 hi, ha halive, hg ▸ hpgid, hp ▸ hpid⟩ halive, fun j => ?_⟩
    rw [sendSignal_procs]
    split_ifs with hj
    · subst hj
      unfold Process.signalled
      split_ifs <;> exact ⟨hg, hp, fun _ => ha halive⟩
    · exact hk₁.2 j
  · exact hk₁

/-- **`process_kill`** sends the signal to living processes. -/
theorem processKill_rec {motive : Kernel → Prop} {k : Kernel} {pid signo : ℤ} (hk : motive k)
    (hsend : ∀ k₁ i, motive k₁ → (k₁.procs i).alive = true → (signo.toNat = sigKill → Killed k pid signo i) →
      motive (sendSignal k₁ i signo.toNat)) : motive (processKill k pid signo).2 := by
  unfold processKill
  split_ifs with hrange hneg
  · exact hk
  · refine signalGroup_rec hk fun k₁ i hk₁ hg ha => hsend k₁ i hk₁ ha fun hkill => ⟨by omega, ?_⟩
    rw [if_pos hneg]
    exact hg
  · split
    · exact hk
    · next i hi =>
        refine hsend k i hk (processGet_eq_some hi).2.1 fun hkill => ⟨by omega, ?_⟩
        rw [if_neg hneg]
        exact hi

/-- The signal that is delivered next. -/
def nextSignal (p : Process) : Option ℕ := (List.range nsig).find? fun s => 0 < s && p.sigPending s

/-- A signal is due: the current process, in user mode with these registers, runs no handler,
and this signal is its next. -/
structure Due (k : Kernel) (regs : Regs) (i signo : ℕ) : Prop where
  frame : (k.tasks k.current).frame = .user regs
  current : processCurrent k = some i
  idle : (k.procs i).sigDelivering = false
  next : nextSignal (k.procs i) = some signo

theorem nextSignal_spec {p : Process} {signo : ℕ} (h : nextSignal p = some signo) :
    signo < nsig ∧ p.sigPending signo = true := by
  have hp := List.find?_some h
  rw [Bool.and_eq_true] at hp
  exact ⟨List.mem_range.1 (List.mem_of_find?_eq_some h), hp.2⟩

/-- The process `i` has taken the signal. -/
def takeSignal (k : Kernel) (i signo : ℕ) : Kernel :=
  k.setProc i fun p => { p with sigPending := Function.update p.sigPending signo false }

/-- The process `i` is about to handle a signal. -/
def saveRegs (k : Kernel) (i : ℕ) (regs : Regs) : Kernel :=
  k.setProc i fun p => { p with sigSavedRegs := some regs, sigDelivering := true }

/-- How the delivery of a signal to the process `i` ends. -/
inductive Delivered (k : Kernel) (regs : Regs) (i signo : ℕ) : Kernel → Prop
  | ended (default : (k.procs i).sigHandlers signo = 0) (ends : terminates signo = true) :
      Delivered k regs i signo (((takeSignal k i signo).setProc i fun p =>
        { p with exitCode := 128 + signo, alive := false }).setTaskState (k.procs i).task .dead)
  | ignored (handler : (k.procs i).sigHandlers signo ≤ 1) : Delivered k regs i signo (takeSignal k i signo)
  /-- There is no stack for the handler. -/
  | refused {vm : Vm} (handler : 1 < (k.procs i).sigHandlers signo)
      (push : userPushZero k.vm (k.tasks k.current).pml4 ((regs.rsp + 2 ^ 64 - 8) % 2 ^ 64) = some (false, vm)) :
      Delivered k regs i signo { (saveRegs (takeSignal k i signo) i regs).setProc i fun p =>
        { p with sigDelivering := false } with vm := vm }
  | entered {vm : Vm} (handler : 1 < (k.procs i).sigHandlers signo)
      (push : userPushZero k.vm (k.tasks k.current).pml4 ((regs.rsp + 2 ^ 64 - 8) % 2 ^ 64) = some (true, vm)) :
      Delivered k regs i signo { (saveRegs (takeSignal k i signo) i regs).setTask k.current fun t =>
        { t with frame := .user { regs with
            rsp := (regs.rsp + 2 ^ 64 - 8) % 2 ^ 64, rip := (k.procs i).sigHandlers signo, rdi := signo } }
        with vm := vm }

/-- **`process_deliver_pending_signals`** does nothing where no signal is due. -/
theorem deliver_cases {k k' : Kernel} (h : processDeliverPendingSignals k = some k') :
    (k' = k ∧ ∀ regs i signo, ¬Due k regs i signo) ∨
      ∃ regs i signo, Due k regs i signo ∧ Delivered k regs i signo k' := by
  unfold processDeliverPendingSignals at h
  split at h
  · next regs i hframe hi =>
    simp only at h
    split at h
    · next signo hidle hnext =>
      refine Or.inr ⟨regs, i, signo, ⟨hframe, hi, hidle, hnext⟩, ?_⟩
      split_ifs at h with h₀ hterm h₁
      · cases h
        exact .ended h₀ hterm
      · cases h
        exact .ignored (by omega)
      · cases h
        exact .ignored (by omega)
      · split at h
        · cases h
        · next hpush =>
          cases h
          exact .refused (by omega) hpush
        · next hpush =>
          cases h
          exact .entered (by omega) hpush
    · next hnone =>
      cases h
      refine Or.inl ⟨rfl, fun regs' j signo hdue => ?_⟩
      cases hi.symm.trans hdue.current
      exact hnone signo hdue.idle hdue.next
  · next hnone =>
    cases h
    exact Or.inl ⟨rfl, fun regs i signo hdue => hnone regs i hdue.frame hdue.current⟩

end LighthOS
