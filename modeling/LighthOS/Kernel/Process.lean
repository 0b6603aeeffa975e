/-
# Processes

The life of a process in `src/kernel/process.c`: `process_alloc`, the creation by
`process_spawn_from_memory` and `process_fork`, `process_execve_from_memory`,
`process_exit` and `process_waitpid`, and `spawn_trampoline`, in which a spawned
task starts.  What `kmalloc` and the file system answer is an argument.
-/

import LighthOS.Kernel.Fd
import LighthOS.Kernel.Signal
import LighthOS.Kernel.UserStack

namespace LighthOS

/-- The process that `process_alloc` makes. -/
def newProcess (pid : ℕ) (name : List UInt8) : Process :=
  { Process.zero with
    pid := pid
    pgid := pid
    name := name.take 31
    alive := true
    fds := fun j => if j < 3 then { FdEntry.zero with type := .console } else .zero
    root := [47]
    cwd := [47] }

/-- The table after `process_alloc` has cleared the slots that were waited for. -/
def reapedProcs (procs : ℕ → Process) (i : ℕ) : Process :=
  if i < processMax ∧ !(procs i).alive ∧ (procs i).reaped then .zero else procs i

/-- The slot that `process_alloc` takes. -/
def freeProc (procs : ℕ → Process) : Option ℕ :=
  (List.range processMax).find? fun i =>
    !(reapedProcs procs i).alive && (reapedProcs procs i).pid == 0

/-- `process_alloc`. -/
def processAlloc (k : Kernel) (name : List UInt8) : Option ℕ × Kernel :=
  match freeProc k.procs with
  | none => (none, { k with procs := reapedProcs k.procs })
  | some i => (some i, { k with
      procs := Function.update (reapedProcs k.procs) i (newProcess k.nextPid name)
      nextPid := (k.nextPid + 1) % 2 ^ 32 })

/-- A process that could not be made: `p->alive = false; return -1`. -/
def abandon (k : Kernel) (i : ℕ) : Kernel := k.setProc i fun p => { p with alive := false }

/-- What a process is spawned from: its name, the program, the arguments, the files
that the interpreter may come from, and the address of the task's stack. -/
structure SpawnArgs where
  name : List UInt8
  elf : Image
  argv : Option (List (List UInt8))
  files : List UInt8 → Option Image
  stackBase : ℕ

/-- The arguments of the new program: at most `SPAWN_ARGV_MAX - 1` strings. -/
def SpawnArgs.args (a : SpawnArgs) : List (List UInt8) :=
  match a.argv with
  | none => [a.name]
  | some l => l.take 15

/-- The end of `process_spawn_from_memory`, with the task `t` for the process `i`. -/
def publishSpawn (k : Kernel) (i t pml4 entry rsp : ℕ) : Kernel :=
  let k := k.setTask t fun x => { x with pml4 := pml4, frame := .trampoline .entry }
  let k := k.setProc i fun p => { p with task := some t, spawnEntry := entry, spawnRsp := rsp }
  taskInsertReady { k with gSpawning := some i } t

/-- `process_spawn_from_memory` after `process_alloc` returned the slot `i`. -/
def spawnInto (k : Kernel) (i : ℕ) (a : SpawnArgs) : Option (Option ℕ × Kernel) :=
  (vmmNewPml4 k.vm).bind fun new =>
    if new.1 = 0 then some (none, abandon { k with vm := new.2 } i)
    else (loadProgram new.2 new.1 a.elf a.files a.args []).bind fun prog =>
      match prog.1 with
      | none => some (none, abandon { k with vm := vmmFreePml4 prog.2 new.1 } i)
      | some (entry, rsp) =>
          (taskAlloc { k with vm := prog.2 } a.name a.stackBase).map fun task =>
            match task.1 with
            | none => (none, abandon { task.2 with vm := vmmFreePml4 task.2.vm new.1 } i)
            | some t => (some (task.2.procs i).pid, publishSpawn task.2 i t new.1 entry rsp)

/-- `process_current() ? process_current()->pid : 0`. -/
def currentPid (k : Kernel) : ℕ :=
  match processCurrent k with
  | some i => (k.procs i).pid
  | none => 0

/-- `process_spawn_from_memory`: the pid, none for `-1`. -/
def processSpawnFromMemory (k : Kernel) (a : SpawnArgs) : Option (Option ℕ × Kernel) :=
  match processAlloc k a.name with
  | (none, k) => some (none, k)
  | (some i, k) => spawnInto (k.setProc i fun p => { p with parentPid := currentPid k }) i a

/-- `spawn_trampoline`, one access to `g_spawning` at a time; the last step jumps to
user mode through the process it has read and its task, and a null pointer halts
the machine. -/
def spawnTrampoline (k : Kernel) : Option Kernel :=
  match (k.tasks k.current).frame with
  | .trampoline .entry =>
      some (k.setTask k.current fun t => { t with frame := .trampoline (.loaded k.gSpawning) })
  | .trampoline (.loaded p) =>
      some { k.setTask k.current fun t => { t with frame := .trampoline (.cleared p) } with
        gSpawning := none }
  | .trampoline (.cleared (some i)) =>
      if (k.procs i).task = none then none
      else some (k.setTask k.current fun t => { t with
        frame := .user ⟨(k.procs i).spawnEntry, (k.procs i).spawnRsp, 0, 0, fun _ => 0⟩ })
  | _ => none

/-- The child's part of the table in `process_fork`: it inherits the group, the
root, the working directory and the descriptors. -/
def inheritFrom (parent child : Process) : Process :=
  { child with
    parentPid := parent.pid
    pgid := parent.pgid
    root := parent.root
    cwd := parent.cwd
    fds := parent.fds }

/-- The registers of the child: `fork` returns `0` there. -/
def childFrame : Frame → Frame
  | .user regs => .user { regs with rax := 0 }
  | f => f

/-- `process_fork` after the child `i` has its descriptors. -/
def forkInto (k : Kernel) (i stackBase : ℕ) : Option (Option ℕ × Kernel) :=
  (vmmNewPml4 k.vm).bind fun new =>
    if new.1 = 0 then some (none, abandon { k with vm := new.2 } i)
    else (duplicateUserSpace new.2 (k.tasks k.current).pml4 new.1).bind fun dup =>
      if !dup.1 then some (none, abandon { k with vm := vmmFreePml4 dup.2 new.1 } i)
      else (taskAlloc { k with vm := dup.2 } (k.procs i).name stackBase).map fun task =>
        match task.1 with
        | none => (none, abandon { task.2 with vm := vmmFreePml4 task.2.vm new.1 } i)
        | some t =>
            let k' := task.2.setTask t fun x =>
              { x with pml4 := new.1, frame := childFrame (k.tasks k.current).frame }
            let k' := k'.setProc i fun p => { p with task := some t }
            (some (k'.procs i).pid, taskInsertReady k' t)

/-- The loop of `process_fork` over the descriptors below `n` of the child `i`: each
inherited pipe end is counted. -/
def countEnds (k : Kernel) (i n : ℕ) : Kernel :=
  (List.range n).foldl (fun k j => addRef k ((k.procs i).fds j)) k

/-- `process_fork`: the pid of the child, none for `-1`. -/
def processFork (k : Kernel) (stackBase : ℕ) : Option (Option ℕ × Kernel) :=
  match processCurrent k with
  | none => some (none, k)
  | some parent =>
      match processAlloc k (k.procs parent).name with
      | (none, k) => some (none, k)
      | (some i, k) =>
          forkInto (countEnds (k.setProc i (inheritFrom (k.procs parent))) i fdMax) i stackBase

/-- The strings of `argv` or `envp` that `process_execve_from_memory` copies, at
most `n` of them, and the bytes used; none where the buffer of 512 bytes is too
small. -/
def copyStrings (n : ℕ) (used : ℕ) (strs : List (List UInt8)) : Option (List (List UInt8) × ℕ) :=
  let l := strs.take n
  let used := used + (l.map fun s => s.length + 1).sum
  if used ≤ 512 then some (l, used) else none

/-- `process_execve_from_memory`: whether it succeeded. -/
def processExecve (k : Kernel) (name : List UInt8) (elf : Image) (files : List UInt8 → Option Image)
    (argv envp : Option (List (List UInt8))) : Option (Bool × Kernel) :=
  match processCurrent k with
  | none => some (false, k)
  | some i =>
      if !elfValidate elf then some (false, k)
      else
        let args := match argv with
          | some l => copyStrings 15 0 l
          | none => some ([name], 0)
        match args, args.bind fun r => copyStrings 31 r.2 (envp.getD []) with
        | some (args, _), some (envs, _) =>
            let pml4 := (k.tasks k.current).pml4
            (loadProgram (vmmUnmapUserSpace k.vm pml4) pml4 elf files args envs).map fun prog =>
              match prog.1 with
              | none => (false, { k with vm := prog.2 })
              | some (entry, rsp) =>
                  let k := { k with vm := prog.2 }
                  (true, (k.setProc i fun p => { p with name := name.take 31 }).setTask k.current
                    fun t => { t with frame := .user ⟨entry, rsp, 0, 0, fun _ => 0⟩ })
        | _, _ => some (false, k)

/-- The children of the process that exits, which nobody will wait for. -/
def reapChildren (procs : ℕ → Process) (pid : ℕ) (j : ℕ) : Process :=
  if j < processMax ∧ (procs j).parentPid = pid ∧ !(procs j).alive ∧ !(procs j).reaped then
    { procs j with reaped := true }
  else procs j

/-- The loop of `process_exit` over the descriptors below `n`: the pipe ends are
given back. -/
def dropEnds (k : Kernel) (i n : ℕ) : Kernel :=
  (List.range n).foldl (fun k j =>
    match ((k.procs i).fds j).type with
    | .pipeRead | .pipeWrite => fdDropRef k i j
    | _ => k) k

/-- The table after the process `i` has exited: nobody waits for its dead children,
nor for itself where its parent is gone. -/
def exitProcs (procs : ℕ → Process) (i : ℕ) (code : ℤ) : ℕ → Process :=
  let procs := Function.update procs i { procs i with exitCode := code, alive := false }
  let procs := reapChildren procs (procs i).pid
  let orphan := !(List.range processMax).any fun j =>
    (procs j).pid == (procs i).parentPid && (procs j).alive
  if orphan then Function.update procs i { procs i with reaped := true } else procs

/-- `process_exit`, up to `task_yield`. -/
def exitCurrent (k : Kernel) (code : ℤ) : Kernel :=
  match processCurrent k with
  | none => k
  | some i =>
      let k := dropEnds k i fdMax
      { k with procs := exitProcs k.procs i code }.setTaskState (k.procs i).task .dead

/-- `process_exit`: the current task never runs again. -/
def processExit (k : Kernel) (code : ℤ) : Option Kernel := schedule (exitCurrent k code)

/-- One round of the loop of `process_waitpid`, up to `task_yield` or its return. -/
def processWaitpid (k : Kernel) (pid : ℕ) : Kernel :=
  match (List.range processMax).find? fun i => (k.procs i).pid == pid with
  | none => k
  | some i =>
      if !(k.procs i).alive then k.setProc i fun p => { p with reaped := true }
      else if ((k.procs i).task.any fun t => (k.tasks t).state = .stopped) && !(k.procs i).stoppedReported
      then k.setProc i fun p => { p with stoppedReported := true }
      else k

/-! ### The process table -/

/-- What `process_alloc` clears is not alive. -/
theorem reapedProcs_eq (procs : ℕ → Process) (i : ℕ) :
    reapedProcs procs i = procs i ∨ (procs i).alive = false ∧ reapedProcs procs i = .zero := by
  unfold reapedProcs
  split_ifs with h
  · exact Or.inr ⟨by simpa using h.2.1, rfl⟩
  · exact Or.inl rfl

/-- **`process_alloc`** takes the slot of no living process. -/
theorem freeProc_spec {procs : ℕ → Process} {i : ℕ} (h : freeProc procs = some i) :
    i < processMax ∧ (procs i).alive = false := by
  have hmem := List.mem_of_find?_eq_some h
  have hp := List.find?_some h
  simp only [Bool.and_eq_true, Bool.not_eq_true', beq_iff_eq] at hp
  refine ⟨List.mem_range.1 hmem, ?_⟩
  rcases reapedProcs_eq procs i with he | ⟨ha, -⟩
  · rw [← he]
    exact hp.1
  · exact ha

/-- After the end of its process, **`process_exit`** only marks dead ones. -/
theorem exitProcs_reaps (procs : ℕ → Process) (i : ℕ) (code : ℤ) (l : ℕ) :
    let ended := Function.update procs i { procs i with exitCode := code, alive := false }
    exitProcs procs i code l = ended l ∨
      (ended l).alive = false ∧ exitProcs procs i code l = { ended l with reaped := true } := by
  intro ended
  have hreap : ∀ pid, reapChildren ended pid l = ended l ∨
      (ended l).alive = false ∧ reapChildren ended pid l = { ended l with reaped := true } := by
    intro pid
    unfold reapChildren
    split_ifs with hc
    · exact Or.inr ⟨by simpa using hc.2.2.1, rfl⟩
    · exact Or.inl rfl
  unfold exitProcs
  simp only
  split_ifs
  · by_cases hl : l = i
    · subst hl
      rw [Function.update_self]
      refine Or.inr ⟨by simp [ended], ?_⟩
      rcases hreap (ended l).pid with he | ⟨-, he⟩
      · exact congrArg (fun p : Process => { p with reaped := true }) he
      · exact congrArg (fun p : Process => { p with reaped := true }) he
    · rw [Function.update_of_ne hl]
      exact hreap _
  · exact hreap _

theorem processAlloc_spec {k k' : Kernel} {name : List UInt8} {r : Option ℕ}
    (h : processAlloc k name = (r, k')) :
    r = freeProc k.procs ∧ k'.vm = k.vm ∧ k'.tasks = k.tasks ∧ k'.current = k.current ∧
      k'.gSpawning = k.gSpawning ∧ k'.schedulingEnabled = k.schedulingEnabled ∧ k'.pipes = k.pipes ∧
      k'.procs = match r with
        | none => reapedProcs k.procs
        | some i => Function.update (reapedProcs k.procs) i (newProcess k.nextPid name) := by
  unfold processAlloc at h
  split at h
  · next he => cases h; exact ⟨he.symm, rfl, rfl, rfl, rfl, rfl, rfl, rfl⟩
  · next he => cases h; exact ⟨he.symm, rfl, rfl, rfl, rfl, rfl, rfl, rfl⟩

theorem OutsideFds.countEnds (k : Kernel) (i n : ℕ) : OutsideFds k (countEnds k i n) :=
  List.foldlRecOn (motive := fun k₁ => OutsideFds k k₁) _ _ (.refl k) fun _ h _ _ =>
    h.trans (.addRef _ _)

theorem countEnds_procs (k : Kernel) (i n : ℕ) : (countEnds k i n).procs = k.procs := by
  refine List.foldlRecOn (motive := fun k₁ : Kernel => k₁.procs = k.procs) _ _ rfl fun k₁ h j _ => ?_
  unfold addRef
  split <;> exact h

theorem OutsideFds.dropEnds (k : Kernel) (i n : ℕ) : OutsideFds k (dropEnds k i n) := by
  refine List.foldlRecOn (motive := fun k₁ => OutsideFds k k₁) _ _ (.refl k) fun k₁ h j _ => ?_
  split
  · exact h.trans (.fdDropRef _ _ _)
  · exact h.trans (.fdDropRef _ _ _)
  · exact h

/-- **`spawn_trampoline`** moves the current task on, and may clear `g_spawning`. -/
theorem spawnTrampoline_eq {k k' : Kernel} (h : spawnTrampoline k = some k') :
    ∃ fr g, k' = { k.setTask k.current fun t => { t with frame := fr } with gSpawning := g } := by
  unfold spawnTrampoline at h
  split at h
  · cases h
    exact ⟨_, _, rfl⟩
  · cases h
    exact ⟨_, _, rfl⟩
  · split_ifs at h
    cases h
    exact ⟨_, _, rfl⟩
  · cases h

/-- **`process_execve_from_memory`** gives its process a new name and sends it to an entry point of
the program, where it succeeds. -/
theorem processExecve_cases {k k' : Kernel} {name : List UInt8} {elf : Image} {files : List UInt8 → Option Image}
    {argv envp : Option (List (List UInt8))} {r : Bool} (h : processExecve k name elf files argv envp = some (r, k')) :
    (r = false ∧ ∃ vm, k' = { k with vm := vm }) ∨ r = true ∧ ∃ i vm entry rsp, processCurrent k = some i ∧
      EntryOf elf files entry ∧ k' = (Kernel.setProc { k with vm := vm } i fun p =>
        { p with name := name.take 31 }).setTask k.current fun t =>
          { t with frame := .user ⟨entry, rsp, 0, 0, fun _ => 0⟩ } := by
  unfold processExecve at h
  split at h
  · cases h
    exact Or.inl ⟨rfl, _, rfl⟩
  next i hi =>
  split_ifs at h
  · cases h
    exact Or.inl ⟨rfl, _, rfl⟩
  simp only at h
  split at h
  · obtain ⟨⟨prog, vm⟩, hload, h⟩ := Option.map_eq_some_iff.1 h
    cases prog with
    | none =>
        cases h
        exact Or.inl ⟨rfl, _, rfl⟩
    | some p =>
        cases h
        exact Or.inr ⟨rfl, i, vm, _, _, hi, loadProgram_entry hload, rfl⟩
  · cases h
    exact Or.inl ⟨rfl, _, rfl⟩

end LighthOS
