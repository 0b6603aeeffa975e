/-
# The state of the kernel

The tables of `src/kernel/task.c` and `src/kernel/process.c`: tasks, processes
with their descriptors, pipes, and the machine's memory.  A pointer to a task or a
process is its index in its table, a pointer to a pipe is its heap address.
Strings are lists of bytes without the final zero.

A task's position, in user mode or in the kernel, is the field `frame`: it stands
for the saved `registers_t` of a task that waits and for the registers of the one
that runs.  The FPU state, the TSS and CPU time accounting are left out.
-/

import LighthOS.Kernel.Pipe
import LighthOS.Mm.Vmm

namespace LighthOS

/-! ### Tasks -/

/-- `TASK_MAX`. -/
abbrev taskMax : ℕ := 64

/-- `task_state_t`. -/
inductive TaskState
  | ready
  | running
  | blocked
  | stopped
  | dead
  deriving DecidableEq

/-- The registers of a task in user mode; `rest` are the other general registers in
their order in `registers_t`. -/
structure Regs where
  rip : ℕ
  rsp : ℕ
  rax : ℕ
  rdi : ℕ
  rest : ℕ → ℕ

/-- Positions inside `spawn_trampoline`, with its local `p`: before it reads
`g_spawning`, before it clears it, and before it jumps to user mode. -/
inductive TrampolinePc
  | entry
  | loaded (p : Option ℕ)
  | cleared (p : Option ℕ)
  deriving DecidableEq

/-- Where a task is. -/
inductive Frame
  | kernel
  | trampoline (pc : TrampolinePc)
  | user (regs : Regs)

/-- `task_t`. -/
structure Task where
  id : ℕ
  name : List UInt8
  state : TaskState
  frame : Frame
  stackBase : ℕ
  next : Option ℕ
  pml4 : ℕ

/-- A task of zero bytes. -/
def Task.zero : Task := ⟨0, [], .ready, .kernel, 0, none, 0⟩

/-! ### Processes -/

/-- `PROCESS_MAX`. -/
abbrev processMax : ℕ := 64

/-- `FD_MAX`. -/
abbrev fdMax : ℕ := 16

/-- `NSIG`. -/
abbrev nsig : ℕ := 32

abbrev sigInt : ℕ := 2
abbrev sigKill : ℕ := 9
abbrev sigAlrm : ℕ := 14
abbrev sigTerm : ℕ := 15
abbrev sigCont : ℕ := 18
abbrev sigStop : ℕ := 19

/-- `fd_type_t`. -/
inductive FdType
  | none
  | console
  | file
  | pipeRead
  | pipeWrite
  deriving DecidableEq

/-- `fd_entry_t`. -/
structure FdEntry where
  type : FdType
  path : List UInt8
  offset : ℕ
  flags : ℕ
  pipe : ℕ
  deriving DecidableEq

/-- An entry of zero bytes. -/
def FdEntry.zero : FdEntry := ⟨.none, [], 0, 0, 0⟩

/-- `process_t`. -/
structure Process where
  pid : ℕ
  parentPid : ℕ
  pgid : ℕ
  name : List UInt8
  task : Option ℕ
  fds : ℕ → FdEntry
  exitCode : ℤ
  alive : Bool
  reaped : Bool
  stoppedReported : Bool
  root : List UInt8
  cwd : List UInt8
  sigHandlers : ℕ → ℕ
  sigPending : ℕ → Bool
  sigDelivering : Bool
  sigSavedRegs : Option Regs
  alarmTicks : ℕ
  spawnEntry : ℕ
  spawnRsp : ℕ

/-- A process of zero bytes. -/
def Process.zero : Process :=
  ⟨0, 0, 0, [], none, fun _ => .zero, 0, false, false, false, [], [], fun _ => 0, fun _ => false,
    false, none, 0, 0, 0⟩

/-! ### The kernel -/

/-- The memory, the tasks, the processes and the pipes by their addresses. -/
structure Kernel where
  vm : Vm
  tasks : ℕ → Task
  current : ℕ
  nextId : ℕ
  schedulingEnabled : Bool
  procs : ℕ → Process
  nextPid : ℕ
  gSpawning : Option ℕ
  foregroundPgid : ℕ
  pipes : ℕ → Option Pipe

namespace Kernel

/-- Change the task `i`. -/
def setTask (k : Kernel) (i : ℕ) (f : Task → Task) : Kernel :=
  { k with tasks := Function.update k.tasks i (f (k.tasks i)) }

/-- Change the process `i`. -/
def setProc (k : Kernel) (i : ℕ) (f : Process → Process) : Kernel :=
  { k with procs := Function.update k.procs i (f (k.procs i)) }

/-- Set the state of a task that a process points to, `if (p->task) ...`. -/
def setTaskState (k : Kernel) (t : Option ℕ) (st : TaskState) : Kernel :=
  match t with
  | none => k
  | some i => k.setTask i fun t => { t with state := st }

variable (k : Kernel) (i j : ℕ) (f : Task → Task) (g : Process → Process)

@[simp] theorem setTask_tasks : (k.setTask i f).tasks j = if j = i then f (k.tasks i) else k.tasks j :=
  Function.update_apply k.tasks i _ j

@[simp] theorem setTask_current : (k.setTask i f).current = k.current := rfl
@[simp] theorem setTask_procs : (k.setTask i f).procs = k.procs := rfl

@[simp] theorem setProc_procs : (k.setProc i g).procs j = if j = i then g (k.procs i) else k.procs j :=
  Function.update_apply k.procs i _ j

@[simp] theorem setProc_tasks : (k.setProc i g).tasks = k.tasks := rfl
@[simp] theorem setProc_current : (k.setProc i g).current = k.current := rfl

variable (o : Option ℕ) (st : TaskState)

@[simp] theorem setTaskState_current : (k.setTaskState o st).current = k.current := by cases o <;> rfl
@[simp] theorem setTaskState_schedulingEnabled :
    (k.setTaskState o st).schedulingEnabled = k.schedulingEnabled := by cases o <;> rfl
@[simp] theorem setTaskState_procs : (k.setTaskState o st).procs = k.procs := by cases o <;> rfl

theorem setTaskState_state (t : ℕ) : ((k.setTaskState o st).tasks t).state
    = if o = some t then st else (k.tasks t).state := by
  cases o with
  | none => rfl
  | some u =>
      rw [setTaskState, setTask_tasks]
      by_cases h : t = u
      · simp [h]
      · simp [h, Ne.symm h]

end Kernel

/-- The kernel after `task_init` and `process_init`: the task "idle" and no
process. -/
def kernelInit (vm : Vm) : Kernel where
  vm := vm
  tasks i := if i = 0 then ⟨0, [105, 100, 108, 101], .running, .kernel, 0, some 0, vm.kernelPml4⟩
    else .zero
  current := 0
  nextId := 1
  schedulingEnabled := false
  procs _ := .zero
  nextPid := 1
  gSpawning := none
  foregroundPgid := 0
  pipes _ := none

/-- `process_current`. -/
def processCurrent (k : Kernel) : Option ℕ :=
  (List.range processMax).find? fun i => (k.procs i).alive && (k.procs i).task == some k.current

/-- `process_get`. -/
def processGet (k : Kernel) (pid : ℕ) : Option ℕ :=
  (List.range processMax).find? fun i => (k.procs i).alive && (k.procs i).pid == pid

theorem processCurrent_eq_some {k : Kernel} {i : ℕ} (h : processCurrent k = some i) :
    i < processMax ∧ (k.procs i).alive = true ∧ (k.procs i).task = some k.current := by
  have hmem := List.mem_of_find?_eq_some h
  have hp := List.find?_some h
  simp only [Bool.and_eq_true, beq_iff_eq] at hp
  exact ⟨List.mem_range.1 hmem, hp⟩

/-- The current process depends on the tasks of the living processes only. -/
theorem processCurrent_setProc (k : Kernel) (j : ℕ) {f : Process → Process}
    (hf : ∀ p, (f p).alive = p.alive ∧ (f p).task = p.task) :
    processCurrent (k.setProc j f) = processCurrent k := by
  unfold processCurrent
  congr 1
  funext i
  rw [Kernel.setProc_procs, Kernel.setProc_current]
  split_ifs with hi
  · rw [(hf _).1, (hf _).2, hi]
  · rfl

theorem processGet_eq_some {k : Kernel} {pid i : ℕ} (h : processGet k pid = some i) :
    i < processMax ∧ (k.procs i).alive = true ∧ (k.procs i).pid = pid := by
  have hmem := List.mem_of_find?_eq_some h
  have hp := List.find?_some h
  simp only [Bool.and_eq_true, beq_iff_eq] at hp
  exact ⟨List.mem_range.1 hmem, hp⟩

end LighthOS
