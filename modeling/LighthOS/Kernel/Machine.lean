/-
# The kernel as a transition system

The kernel runs one thing at a time: interrupts are off in a system call, so that
each call of the functions of `process.c` is one step, and only
`spawn_trampoline`, which runs with interrupts on, takes several.  What a process
asks for, what the heap and the file system answer, and when an interrupt comes
are arbitrary.

A program in user mode changes its registers, and the kernel finds them so when it is
entered; instructions are fetched from the user half only.  A system call is made by a task
in user mode, or by `kernel_main` in the idle task.  The name of a program that is executed is a resolved path and is not empty,
that of a program that is spawned is what comes behind the last slash of one.  The
heap hands out addresses that are not in use.

`kernel_main` of `src/kernel/main.c` calls `pmm_init`, `vmm_init` and `pmm_reserve_range` for
the kernel heap before the first process.
-/

import LighthOS.Lib.System
import LighthOS.Kernel.Process

namespace LighthOS

/-- What happens next. -/
inductive KernelOp
  | enableScheduling
  | schedule
  | tickAlarms
  | deliver
  | fault (signo : ℕ)
  | killForeground
  | stopForeground
  | trampoline
  | spawn (a : SpawnArgs)
  | waitpid (pid : ℕ)
  | fork (stackBase : ℕ)
  | execve (name : List UInt8) (elf : Image) (files : List UInt8 → Option Image)
      (argv envp : Option (List (List UInt8)))
  | exit (code : ℤ)
  | kill (pid signo : ℤ)
  | pause
  | signal (signo : ℤ) (handler : ℕ)
  | sigreturn
  | alarm (secs : ℕ)
  | setpgid (pid pgid : ℕ)
  | setForeground (pgid : ℕ)
  | pipe (addr : ℕ)
  | dup2 (oldfd newfd : ℤ)
  | close (fd : ℤ)
  | mmapAnon (addr len : ℕ) (prot : U64)
  | mprotect (addr len : ℕ) (prot : U64)
  | vgaGfx (va : ℕ)
  | userRun (regs : Regs)

/-- One step; none where the machine halts. -/
def kernelStep (k : Kernel) : KernelOp → Option Kernel
  | .enableScheduling => some { k with schedulingEnabled := true }
  | .schedule => schedule k
  | .tickAlarms => some (processTickAlarms k)
  | .deliver => processDeliverPendingSignals k
  | .fault signo => userFaultTerminate k signo
  | .killForeground => some (processKillForeground k)
  | .stopForeground => some (processStopForeground k)
  | .trampoline => spawnTrampoline k
  | .spawn a => (processSpawnFromMemory k a).map fun r => r.2
  | .waitpid pid => some (processWaitpid k pid)
  | .fork stackBase => (processFork k stackBase).map fun r => r.2
  | .execve name elf files argv envp => (processExecve k name elf files argv envp).map fun r => r.2
  | .exit code => processExit k code
  | .kill pid signo => some (processKill k pid signo).2
  | .pause => sysPause k
  | .signal signo handler => some (processSignal k signo handler)
  | .sigreturn => some (processSigreturn k)
  | .alarm secs => some (processSetAlarm k secs)
  | .setpgid pid pgid => some (processSetpgid k pid pgid)
  | .setForeground pgid => some { k with foregroundPgid := pgid }
  | .pipe addr => some (fdPipe k addr).2
  | .dup2 oldfd newfd => some (fdDup2 k oldfd newfd).2
  | .close fd => some (fdClose k fd).2
  | .mmapAnon addr len prot =>
      (mmapAnon k.vm (k.tasks k.current).pml4 addr len prot).map fun r => { k with vm := r.2 }
  | .mprotect addr len prot =>
      (mprotect k.vm (k.tasks k.current).pml4 addr len prot).map fun r => { k with vm := r.2 }
  | .vgaGfx va => (vgaGfx k.vm (k.tasks k.current).pml4 va).map fun r => { k with vm := r.2 }
  | .userRun regs => some (k.setTask k.current fun t => { t with frame := .user regs })

/-- Whether a task is in user mode. -/
def Frame.isUser : Frame → Bool
  | .user _ => true
  | _ => false

/-- Whether a task is inside `spawn_trampoline`. -/
def Frame.isTrampoline : Frame → Bool
  | .trampoline _ => true
  | _ => false

/-- Who can do what. -/
def KernelOp.possible (k : Kernel) : KernelOp → Bool
  | .enableScheduling | .schedule | .tickAlarms | .deliver | .killForeground | .stopForeground
  | .trampoline => true
  | .spawn _ | .waitpid _ => !(k.tasks k.current).frame.isTrampoline
  | .execve name .. => (k.tasks k.current).frame.isUser && name != []
  | .pipe addr => (k.tasks k.current).frame.isUser && (k.pipes addr).isNone
  | .userRun regs => (k.tasks k.current).frame.isUser && decide (regs.rip < 2 ^ 47)
  | _ => (k.tasks k.current).frame.isUser

/-- A step that can happen. -/
def kernelRun (k : Kernel) (op : KernelOp) : Option Kernel :=
  if op.possible k then kernelStep k op else none

/-- `KHEAP_PHYS`. -/
abbrev kheapPhys : ℕ := 0x01000000

/-- `KHEAP_SIZE`. -/
abbrev kheapSize : ℕ := 0x02000000

/-- The memory part of `kernel_main`, from the contents `mem` of the memory. -/
def bootVm (mbi : Multiboot) (kernelEnd : ℕ) (mem : ℕ → ℕ → U64) : Option Vm :=
  (vmmInit ⟨mem, pmmInit mbi kernelEnd, 0⟩).map fun s =>
    { s with pmm := pmmReserveRange s.pmm kheapPhys kheapSize }

/-- The kernel from boot on. -/
def kernelSystem : System Kernel KernelOp :=
  .ofFun (fun k => ∃ mbi kernelEnd mem vm, bootVm mbi kernelEnd mem = some vm ∧ k = kernelInit vm)
    kernelRun

theorem kernelRun_eq_some {k k' : Kernel} {op : KernelOp} :
    kernelRun k op = some k' ↔ op.possible k = true ∧ kernelStep k op = some k' := by
  unfold kernelRun
  split_ifs with h <;> simp [h]

/-! ### A small machine -/

/-- A program without segments. -/
def smallImage : Image where
  data i := match i with
    | 0 => 0x7F | 1 => 0x45 | 2 => 0x4C | 3 => 0x46 | 4 => 2 | 5 => 1 | 16 => 2 | 18 => 62
    | 26 => 0x40 | 32 => 64 | 54 => 56 | 56 => 1
    | _ => 0
  size := 120

/-- The small program under the name "a". -/
def smallSpawn : KernelOp := .spawn ⟨[97], smallImage, none, fun _ => none, 0x1000⟩

/-- A machine with 64 free frames behind the kernel. -/
def smallMbi : Multiboot := ⟨some [⟨0x101000, 0x40000, true⟩], 0, none, 0⟩

/-- Its memory after boot. -/
def bootedSmall : Option Vm := bootVm smallMbi 0x100000 fun _ _ => 0

/-- Its kernel after boot. -/
def smallKernel : Option Kernel := bootedSmall.map kernelInit

theorem init_smallKernel (k : Kernel) (h : smallKernel = some k) : kernelSystem.init k := by
  obtain ⟨vm, hvm, rfl⟩ := Option.map_eq_some_iff.1 h
  exact ⟨_, _, _, vm, hvm, rfl⟩

/-- The first process is spawned and runs up to user mode. -/
def startOps : List KernelOp :=
  [smallSpawn, .enableScheduling, .schedule, .trampoline, .trampoline, .trampoline]

end LighthOS
