/-
# The arguments in procfs

`/proc/<pid>/cmdline` should show the arguments of a process.  `process_execve_from_memory` copies them into
`spawn_argv_buf` of its process, and `compose_pid_cmdline` of `src/fs/procfs.c` reads them there, by their
number `spawn_argc` and their places `spawn_argv_off`.  These three fields are kept beside the kernel here,
which does not depend on them, by the slot of their process.

No function writes `spawn_argc` or `spawn_argv_off`: they stay zero, as `process_alloc` clears them
(`ArgvKernel.argc_zero`), and the file shows the name of the program (`composePidCmdline_eq`).  This is the
argument list exactly where the name is the only argument (`cmdline_argv_iff`).
-/

import LighthOS.Fs.Vfs
import LighthOS.Kernel.CpuTime

namespace LighthOS

/-! ### The three fields -/

/-- `spawn_argc`, `spawn_argv_off` and `spawn_argv_buf` of a process. -/
structure SpawnArgv where
  argc : ℤ
  off : ℕ → ℕ
  buf : ℕ → UInt8

/-- The fields of a cleared slot. -/
def SpawnArgv.zero : SpawnArgv := ⟨0, fun _ => 0, fun _ => 0⟩

/-- `SPAWN_ARGV_BUF`. -/
abbrev spawnArgvBuf : ℕ := 512

/-- `SPAWN_ARGV_MAX`. -/
abbrev spawnArgvMax : ℕ := 16

/-- The kernel with these fields of its processes. -/
structure ArgvKernel where
  kernel : Kernel
  argv : ℕ → SpawnArgv

/-- `memcpy(buf + at, bytes, ...)`. -/
def copyTo (buf : ℕ → UInt8) (start : ℕ) (bytes : Bytes) (j : ℕ) : UInt8 :=
  if start ≤ j ∧ j < start + bytes.length then bytes.getD (j - start) 0 else buf j

/-- The loop of `process_execve_from_memory` over at most `n` strings of `argv` or `envp`, with `used` bytes of
the buffer taken: how many are taken in the end, none where a string does not fit. -/
def snapshotLoop : ℕ → List Bytes → ℕ → (ℕ → UInt8) → Option ℕ × (ℕ → UInt8)
  | n + 1, s :: strs, used, buf =>
      if spawnArgvBuf < used + (s.length + 1) then (none, buf)
      else snapshotLoop n strs (used + (s.length + 1)) (copyTo buf used (s ++ [0]))
  | _, _, used, buf => (some used, buf)

/-- The buffer after the copying. -/
def snapshot (argv envp : Option (List Bytes)) (buf : ℕ → UInt8) : ℕ → UInt8 :=
  match snapshotLoop 15 (argv.getD []) 0 buf with
  | (none, buf) => buf
  | (some used, buf) => (snapshotLoop 31 (envp.getD []) used buf).2

namespace ArgvKernel

variable (w : ArgvKernel)

/-- The fields after `process_alloc`, which clears the slots that were waited for and the one that it takes. -/
def cleared (i : ℕ) : SpawnArgv :=
  if i < processMax ∧ !(w.kernel.procs i).alive ∧ (w.kernel.procs i).reaped then .zero
  else if freeProc w.kernel.procs = some i then .zero
  else w.argv i

/-- The fields after `process_execve_from_memory`, whether or not it succeeds. -/
def snapshots (elf : Image) (argv envp : Option (List Bytes)) : ℕ → SpawnArgv :=
  match processCurrent w.kernel with
  | none => w.argv
  | some i =>
      if !elfValidate elf then w.argv
      else Function.update w.argv i { w.argv i with buf := snapshot argv envp (w.argv i).buf }

/-- What a step of the kernel does to the fields. -/
def argvAfter : KernelOp → ℕ → SpawnArgv
  | .spawn _ => w.cleared
  | .fork _ => if (processCurrent w.kernel).isSome then w.cleared else w.argv
  | .execve _ elf _ argv envp => w.snapshots elf argv envp
  | _ => w.argv

/-- A step of the kernel. -/
def step (op : KernelOp) : Option ArgvKernel := (kernelRun w.kernel op).map fun k => ⟨k, w.argvAfter op⟩

/-- `process_execve_from_memory`: whether it succeeded. -/
def execve (name : Bytes) (elf : Image) (files : Bytes → Option Image) (argv envp : Option (List Bytes)) :
    Option (Bool × ArgvKernel) :=
  (processExecve w.kernel name elf files argv envp).map fun r => (r.1, ⟨r.2, w.snapshots elf argv envp⟩)

end ArgvKernel

/-- The kernel from boot on. -/
def argvSystem : System ArgvKernel KernelOp :=
  .ofFun (fun w => kernelSystem.init w.kernel ∧ w.argv = fun _ => .zero) ArgvKernel.step

/-- **Nobody sets `spawn_argc`.** -/
theorem ArgvKernel.argvAfter_argc {w : ArgvKernel} (h : ∀ j, (w.argv j).argc = 0) (op : KernelOp) (j : ℕ) :
    (w.argvAfter op j).argc = 0 := by
  have hcleared : (w.cleared j).argc = 0 := by
    unfold cleared
    split_ifs
    · rfl
    · rfl
    · exact h j
  cases op with
  | spawn a => exact hcleared
  | fork b =>
      unfold argvAfter
      split_ifs
      · exact hcleared
      · exact h j
  | execve name elf files argv envp =>
      unfold argvAfter snapshots
      cases processCurrent w.kernel with
      | none => exact h j
      | some i =>
          dsimp only
          split_ifs
          · exact h j
          · rw [Function.update_apply]
            split_ifs with hj
            · exact h i
            · exact h j
  | _ => exact h j

theorem ArgvKernel.argc_zero {w : ArgvKernel} (h : argvSystem.Reaches w) : ∀ j, (w.argv j).argc = 0 := by
  refine h.invariant (I := fun w : ArgvKernel => ∀ j, (w.argv j).argc = 0) (fun w h₀ j => ?_) fun w op w' hI hs => ?_
  · rw [h₀.2]
    rfl
  · obtain ⟨k, -, rfl⟩ := Option.map_eq_some_iff.1 hs
    exact argvAfter_argc hI op

/-! ### The file -/

/-- `append_str` into a buffer of `cap` bytes; the string ends at its terminator. -/
def appendStr (cap : ℕ) (out : Bytes) : Bytes → Bytes
  | [] => out
  | c :: s => if c ≠ 0 ∧ out.length < cap - 1 then appendStr cap (out ++ [c]) s else out

/-- `append_bounded`: the string is in the `maxLen` bytes at `src`. -/
def appendBounded (cap : ℕ) (out : Bytes) (src : ℕ → UInt8) (maxLen : ℕ) : Bytes :=
  appendStr cap out ((List.range maxLen).map src)

/-- `if (p < cap) out[p++] = '\0'`. -/
def appendNul (cap : ℕ) (out : Bytes) : Bytes := if out.length < cap then out ++ [0] else out

/-- `compose_pid_cmdline`. -/
def composePidCmdline (w : ArgvKernel) (pid cap : ℕ) : Bytes :=
  match processGet w.kernel pid with
  | none => []
  | some i =>
      let p := w.argv i
      if p.argc ≤ 0 then appendNul cap (appendStr cap [] (w.kernel.procs i).name)
      else (List.range (min p.argc.toNat spawnArgvMax)).foldl (fun out n =>
        if spawnArgvBuf ≤ p.off n then out
        else appendNul cap (appendBounded cap out (fun j => p.buf (p.off n + j)) (spawnArgvBuf - p.off n))) []

/-- `procfs_read` of the file of the process `pid`, none for `-1`. -/
def readCmdline (w : ArgvKernel) (pid size : ℕ) (offset : ℤ) : Option Bytes :=
  if offset < 0 then none
  else
    let tmp := composePidCmdline w pid 1024
    if (tmp.length : ℤ) ≤ offset then some []
    else some ((tmp.drop offset.toNat).take (min size (tmp.length - offset.toNat)))

theorem readCmdline_eq (w : ArgvKernel) (pid size offset : ℕ) :
    readCmdline w pid size offset = some (((composePidCmdline w pid 1024).drop offset).take size) := by
  unfold readCmdline
  rw [if_neg (by omega), Int.toNat_natCast]
  dsimp only
  split_ifs with hend
  · rw [List.drop_eq_nil_of_le (by omega), List.take_nil]
  · rw [← List.length_drop, ← List.take_take, List.take_length]

/-- The VFS reads this file, where the text of the file is what `compose_pid_cmdline` gives. -/
theorem procfsRead_cmdline {σ : Type} (env : FsEnv σ) (w : ArgvKernel) (pid size offset : ℕ)
    (htext : env.text .pidCmdline pid = composePidCmdline w pid 1024) :
    procfsRead env .pidCmdline pid size offset = readCmdline w pid size offset := by
  rw [readCmdline_eq, ← htext]
  simp only [procfsRead, if_neg (show ¬(offset : ℤ) < 0 by omega), Int.toNat_natCast]

theorem appendStr_eq (cap : ℕ) (out s : Bytes) (hnul : 0 ∉ s) (hroom : out.length + s.length < cap) :
    appendStr cap out s = out ++ s := by
  induction s generalizing out with
  | nil => simp [appendStr]
  | cons c s ih =>
      rw [List.mem_cons, not_or] at hnul
      rw [List.length_cons] at hroom
      have hroom' : (out ++ [c]).length + s.length < cap := by
        rw [List.length_append, List.length_singleton]
        omega
      rw [appendStr, if_pos ⟨Ne.symm hnul.1, by omega⟩, ih _ hnul.2 hroom', List.append_assoc, List.singleton_append]

/-- **The file shows the name of the program.** -/
theorem composePidCmdline_eq {w : ArgvKernel} {pid i : ℕ} (hargc : (w.argv i).argc = 0)
    (hget : processGet w.kernel pid = some i) (hnul : 0 ∉ (w.kernel.procs i).name)
    (hlen : (w.kernel.procs i).name.length ≤ 31) :
    composePidCmdline w pid 1024 = (w.kernel.procs i).name ++ [0] := by
  unfold composePidCmdline
  rw [hget]
  dsimp only
  rw [if_pos (by omega), appendStr_eq 1024 [] _ hnul (by simp; omega), List.nil_append, appendNul, if_pos (by omega)]

/-! ### What comes after `execve` -/

/-- The steps after an `execve` of the process `i`: forks and new processes, context switches, user code, and
an `execve` of another process. -/
def KernelOp.isLater (k : Kernel) (i : ℕ) : KernelOp → Bool
  | .fork _ | .spawn _ | .schedule | .trampoline | .userRun _ => true
  | .execve .. => processCurrent k != some i
  | _ => false

/-- Somebody reads the file: where the next read starts, and the bytes read so far. -/
structure CmdlineReader where
  machine : ArgvKernel
  offset : ℕ
  bytes : Bytes

/-- A step of the kernel, or a read of so many bytes. -/
inductive LaterOp
  | kernel (op : KernelOp)
  | read (size : ℕ)

/-- The bytes that are asked for. -/
def LaterOp.size : LaterOp → ℕ
  | .kernel _ => 0
  | .read size => size

/-- One step while `pid` is the process `i`. -/
def laterStep (i pid : ℕ) (r : CmdlineReader) (op : LaterOp) : Option CmdlineReader :=
  if processGet r.machine.kernel pid = some i then
    match op with
    | .kernel op =>
        if op.isLater r.machine.kernel i then (r.machine.step op).map fun m => { r with machine := m } else none
    | .read size => (readCmdline r.machine pid size r.offset).map fun b =>
        { r with offset := r.offset + b.length, bytes := r.bytes ++ b }
  else none

theorem deliver_name {k k' : Kernel} (h : processDeliverPendingSignals k = some k') (j : ℕ) :
    (k'.procs j).name = (k.procs j).name := by
  rcases deliver_cases h with ⟨rfl, -⟩ | ⟨regs, i, signo, -, hd⟩
  · rfl
  have hset : ∀ {k₁ : Kernel} {f : Process → Process}, (k₁.procs j).name = (k.procs j).name →
      (∀ p : Process, (f p).name = p.name) → ((k₁.setProc i f).procs j).name = (k.procs j).name := by
    intro k₁ f h₁ hf
    rw [← h₁, Kernel.setProc_procs]
    split_ifs with hj
    · rw [hf, hj]
    · rfl
  have htake : ((takeSignal k i signo).procs j).name = (k.procs j).name := hset rfl fun _ => rfl
  have hsave : ((saveRegs (takeSignal k i signo) i regs).procs j).name = (k.procs j).name := hset htake fun _ => rfl
  cases hd with
  | ended =>
      rw [Kernel.setTaskState_procs]
      exact hset htake fun _ => rfl
  | ignored => exact htake
  | refused => exact hset (f := fun p => { p with sigDelivering := false }) hsave fun _ => rfl
  | entered => exact hsave

/-- `process_execve_from_memory` gives the current process its new name, where it succeeds. -/
theorem processExecve_name {k k' : Kernel} {name : Bytes} {elf : Image} {files : Bytes → Option Image}
    {argv envp : Option (List Bytes)} {r : Bool} (h : processExecve k name elf files argv envp = some (r, k'))
    (j : ℕ) :
    (k'.procs j).name = if r = true ∧ processCurrent k = some j then name.take 31 else (k.procs j).name := by
  rcases processExecve_cases h with ⟨rfl, vm, rfl⟩ | ⟨rfl, i, vm, entry, rsp, hi, -, rfl⟩
  · simp
  · simp only [Kernel.setTask_procs, Kernel.setProc_procs, hi, true_and, Option.some.injEq, eq_comm (a := i)]
    split_ifs <;> rfl

/-- A new process leaves the living ones alone. -/
theorem Populates.procs_of_alive {k k' : Kernel} (h : Populates k k') {i : ℕ} (hi : (k.procs i).alive = true) :
    k'.procs i = k.procs i := by
  have hfree : freeProc k.procs ≠ some i := by
    intro hf
    rw [(freeProc_spec hf).2] at hi
    cases hi
  rw [h i hfree]
  rcases reapedProcs_eq k.procs i with he | ⟨hd, -⟩
  · exact he
  · rw [hi] at hd
    cases hd

/-- **The later steps** leave the name of the process alone. -/
theorem isLater_name {k k' : Kernel} {i : ℕ} {op : KernelOp} (hi : (k.procs i).alive = true)
    (hop : op.isLater k i = true) (h : kernelRun k op = some k') : (k'.procs i).name = (k.procs i).name := by
  obtain ⟨-, h⟩ := kernelRun_eq_some.1 h
  cases op with
  | fork b =>
      obtain ⟨⟨r, k₁⟩, hfork, rfl⟩ := Option.map_eq_some_iff.1 h
      rcases Births.processFork (S := fun _ => False) hfork with ⟨-, -, rfl⟩ | ⟨_, _, -, -, hb⟩
      · rfl
      · rw [hb.populates.procs_of_alive hi]
  | spawn a =>
      obtain ⟨⟨r, k₁⟩, hspawn, rfl⟩ := Option.map_eq_some_iff.1 h
      rw [(Births.processSpawn hspawn).populates.procs_of_alive hi]
  | schedule =>
      rw [kernelStep, LighthOS.schedule] at h
      split_ifs at h
      · cases h
        rfl
      · obtain ⟨k₁, hswitch, h⟩ := Option.bind_eq_some_iff.1 h
        rw [deliver_name h i, (switchTask_outside hswitch).1.procs]
  | trampoline =>
      obtain ⟨fr, g, rfl⟩ := spawnTrampoline_eq h
      rfl
  | userRun regs =>
      cases h
      rfl
  | execve name elf files argv envp =>
      obtain ⟨⟨r, k₁⟩, hexec, rfl⟩ := Option.map_eq_some_iff.1 h
      rw [KernelOp.isLater, bne_iff_ne] at hop
      rw [processExecve_name hexec i, if_neg fun h => hop h.2]
  | _ => cases hop

/-! ### Reading -/

/-- What the file should show: each argument with its terminator. -/
def cmdlineOf (argv : List Bytes) : Bytes := argv.flatMap fun s => s ++ [0]

/-- The arguments that `execve` takes fit into its buffer. -/
theorem length_cmdlineOf_le {k k' : Kernel} {name : Bytes} {elf : Image} {files : Bytes → Option Image}
    {argv : List Bytes} {envp : Option (List Bytes)}
    (h : processExecve k name elf files (some argv) envp = some (true, k')) (hcount : argv.length ≤ 15) :
    (cmdlineOf argv).length ≤ spawnArgvBuf := by
  have hsum : (cmdlineOf argv).length = (argv.map fun s => s.length + 1).sum := by
    simp [cmdlineOf, List.length_flatMap]
  by_contra hbig
  have hno : copyStrings 15 0 argv = none := by
    unfold copyStrings
    dsimp only
    rw [List.take_of_length_le hcount, Nat.zero_add, ← hsum, if_neg hbig]
  unfold processExecve at h
  split at h
  · cases h
  · split_ifs at h
    · cases h
    · simp [hno] at h

/-- A read goes on where the one before has ended. -/
theorem take_append_take_drop {α : Type*} (l : List α) (n m : ℕ) :
    l.take n ++ (l.drop (l.take n).length).take m = l.take (n + m) := by
  rw [List.take_add, List.length_take]
  rcases Nat.le_total n l.length with h | h
  · rw [Nat.min_eq_left h]
  · rw [Nat.min_eq_right h, List.drop_length, List.drop_eq_nil_of_le h]

/-- **Reading while others run.**  The reads after one another give the name of the program with its
terminator, from where the first one starts. -/
theorem later_bytes {i pid : ℕ} {nm : Bytes} (hnul : 0 ∉ nm) (hlen : nm.length ≤ 31) {ops : List LaterOp}
    {r r' : CmdlineReader} (hargc : ∀ j, (r.machine.argv j).argc = 0) (hname : (r.machine.kernel.procs i).name = nm)
    (h : System.exec (laterStep i pid) r ops = some r') :
    r'.bytes = r.bytes ++ ((nm ++ [0]).drop r.offset).take (ops.map LaterOp.size).sum := by
  induction ops generalizing r with
  | nil =>
      cases h
      simp
  | cons op ops ih =>
      obtain ⟨r₁, hstep, h⟩ := Option.bind_eq_some_iff.1 h
      unfold laterStep at hstep
      split_ifs at hstep with hget
      cases op with
      | kernel op =>
          dsimp only at hstep
          split_ifs at hstep with hop
          obtain ⟨m, hm, rfl⟩ := Option.map_eq_some_iff.1 hstep
          obtain ⟨k, hk, rfl⟩ := Option.map_eq_some_iff.1 hm
          have hlater := isLater_name ((processGet_eq_some hget).2.1) hop hk
          rw [ih (ArgvKernel.argvAfter_argc hargc op) (hlater.trans hname) h]
          simp [LaterOp.size]
      | read size =>
          obtain ⟨b, hb, rfl⟩ := Option.map_eq_some_iff.1 hstep
          rw [readCmdline_eq, composePidCmdline_eq (hargc i) hget (hname ▸ hnul) (hname ▸ hlen), hname,
            Option.some.injEq] at hb
          rw [ih (r := ⟨r.machine, r.offset + b.length, r.bytes ++ b⟩) hargc hname h, List.append_assoc,
            ← List.drop_drop, ← hb, take_append_take_drop]
          rfl

theorem cmdlineOf_eq_iff {argv : List Bytes} {nm : Bytes} (hargv : ∀ s ∈ argv, 0 ∉ s) (hnm : 0 ∉ nm) :
    cmdlineOf argv = nm ++ [0] ↔ argv = [nm] := by
  have hfirst : ∀ s rest : Bytes, 0 ∉ s → (s ++ 0 :: rest).takeWhile (· != 0) = s := by
    intro s rest hs
    rw [List.takeWhile_append_of_pos fun c hc => by
      rw [bne_iff_ne]
      rintro rfl
      exact hs hc]
    simp
  constructor
  · intro h
    cases argv with
    | nil => simp [cmdlineOf] at h
    | cons s argv =>
        have hs := hargv s List.mem_cons_self
        have hcons : s ++ 0 :: cmdlineOf argv = nm ++ 0 :: [] := by simpa [cmdlineOf] using h
        have heq : s = nm := by
          rw [← hfirst s (cmdlineOf argv) hs, hcons, hfirst nm [] hnm]
        subst heq
        have hrest : cmdlineOf argv = [] := (List.cons.inj (List.append_cancel_left hcons)).2
        cases argv with
        | nil => rfl
        | cons t argv => simp [cmdlineOf] at hrest
  · rintro rfl
    simp [cmdlineOf]

/-- **`/proc/<pid>/cmdline` shows the arguments exactly where the name is the only one.**  After a successful
`execve` in a reached state, with at most fifteen arguments, reads of any sizes from any offset on give the
arguments with their terminators, while processes fork and switch, if and only if the only argument is the
name of the program, cut off at 31 characters. -/
theorem cmdline_argv_iff {w w' : ArgvKernel} {i pid : ℕ} {name : Bytes} {elf : Image}
    {files : Bytes → Option Image} {argv : List Bytes} {envp : Option (List Bytes)} (hw : argvSystem.Reaches w)
    (hcur : processCurrent w.kernel = some i) (hexec : w.execve name elf files (some argv) envp = some (true, w'))
    (hget : processGet w'.kernel pid = some i) (hcount : argv.length ≤ 15) (hargv : ∀ s ∈ argv, 0 ∉ s)
    (hname : 0 ∉ name) :
    (∀ offset ops r, System.exec (laterStep i pid) ⟨w', offset, []⟩ ops = some r →
      r.bytes = ((cmdlineOf argv).drop offset).take (ops.map LaterOp.size).sum) ↔ argv = [name.take 31] := by
  obtain ⟨⟨ok, k'⟩, hrun, heq⟩ := Option.map_eq_some_iff.1 hexec
  cases heq
  have hnul : 0 ∉ name.take 31 := fun h => hname (List.mem_of_mem_take h)
  have hlen : (name.take 31).length ≤ 31 := List.length_take_le 31 name
  have hargc : ∀ j, (w.snapshots elf (some argv) envp j).argc = 0 :=
    ArgvKernel.argvAfter_argc (ArgvKernel.argc_zero hw) (.execve name elf files (some argv) envp)
  have hnew : (k'.procs i).name = name.take 31 := by
    rw [processExecve_name hrun i, if_pos ⟨rfl, hcur⟩]
  rw [← cmdlineOf_eq_iff hargv hnul]
  constructor
  · intro hall
    -- one read of 1024 bytes shows all of the file, and all of the arguments
    have hread : ∃ r, System.exec (laterStep i pid) ⟨⟨k', w.snapshots elf (some argv) envp⟩, 0, []⟩ [.read 1024]
        = some r := by
      simp only [System.exec, laterStep, if_pos hget, readCmdline_eq, Option.map_some, Option.bind_some]
      exact ⟨_, rfl⟩
    obtain ⟨r, hr⟩ := hread
    have hshown := hall 0 [.read 1024] r hr
    rw [later_bytes hnul hlen hargc hnew hr, List.nil_append, List.drop_zero, List.drop_zero] at hshown
    have htotal : ([LaterOp.read 1024].map LaterOp.size).sum = 1024 := rfl
    have hfile : (name.take 31 ++ [0]).take 1024 = name.take 31 ++ [0] := by
      refine List.take_of_length_le ?_
      rw [List.length_append, List.length_singleton]
      omega
    have hargs : (cmdlineOf argv).take 1024 = cmdlineOf argv :=
      List.take_of_length_le ((length_cmdlineOf_le hrun hcount).trans (by decide))
    rw [htotal, hfile, hargs] at hshown
    exact hshown.symm
  · intro heq offset ops r hrun
    rw [later_bytes hnul hlen hargc hnew hrun, heq, List.nil_append]

/-- The small machine with the fields of its processes. -/
def smallArgv : Option ArgvKernel := smallKernel.map fun k => ⟨k, fun _ => .zero⟩

theorem init_smallArgv (w : ArgvKernel) (h : smallArgv = some w) : argvSystem.init w := by
  obtain ⟨k, hk, rfl⟩ := Option.map_eq_some_iff.1 h
  exact ⟨init_smallKernel k hk, rfl⟩

/-- The small program is executed under the name "b", with these arguments. -/
def ArgvKernel.smallExecve (w : ArgvKernel) (argv : List Bytes) : Option (Bool × ArgvKernel) :=
  w.execve [98] smallImage (fun _ => none) (some argv) none

/-- One argument, and two. -/
def smallArgs : List (List Bytes) := [[[98]], [[98], [120]]]

/-- A read, a context switch and another read. -/
def smallReads : List LaterOp := [.read 1, .kernel .schedule, .read 63]

/-- The first process executes the program with one argument or with two. -/
theorem smallExecve_shown : ∃ w, argvSystem.Reaches w ∧ processCurrent w.kernel = some 0 ∧
    ∀ argv ∈ smallArgs, ∃ w' r, w.smallExecve argv = some (true, w') ∧
      processGet w'.kernel 1 = some 0 ∧ System.exec (laterStep 0 1) ⟨w', 0, []⟩ smallReads = some r ∧
      r.bytes = [98, 0] := by
  have hrun : (smallArgv.bind fun w => System.exec ArgvKernel.step w startOps).any (fun w => decide (
      processCurrent w.kernel = some 0 ∧ ∀ argv ∈ smallArgs,
        ((w.smallExecve argv).any fun r => decide (r.1 = true ∧ processGet r.2.kernel 1 = some 0 ∧
          ((System.exec (laterStep 0 1) ⟨r.2, 0, []⟩ smallReads).any
            fun r => decide (r.bytes = [98, 0])) = true)) = true)) = true := by decide +kernel
  obtain ⟨w, hreach, hcur, hexec⟩ := System.exists_reaches init_smallArgv hrun
  refine ⟨w, hreach, hcur, fun argv hargv => ?_⟩
  obtain ⟨⟨ok, w'⟩, hexec, hlater⟩ := (Option.any_eq_true _ _).1 (hexec argv hargv)
  obtain ⟨rfl, hget, hread⟩ := of_decide_eq_true hlater
  obtain ⟨r, hr, hbytes⟩ := (Option.any_eq_true _ _).1 hread
  exact ⟨w', r, hexec, hget, hr, of_decide_eq_true hbytes⟩

/-- The hypotheses of `cmdline_argv_iff` are satisfiable: the first process executes a program with its name as
the only argument; the file shows it, in two reads. -/
theorem cmdline_argv_iff_name : ∃ w w' r, argvSystem.Reaches w ∧ w.smallExecve [[98]] = some (true, w') ∧
    System.exec (laterStep 0 1) ⟨w', 0, []⟩ smallReads = some r ∧ r.bytes = (cmdlineOf [[98]]).take 64 := by
  obtain ⟨w, hw, hcur, hshown⟩ := smallExecve_shown
  obtain ⟨w', r, hexec, hget, hr, -⟩ := hshown [[98]] (by decide)
  refine ⟨w, w', r, hw, hexec, hr, ?_⟩
  exact (cmdline_argv_iff hw hcur hexec hget (by decide) (by decide) (by decide)).2 rfl 0 smallReads r hr

/-- **The arguments are not shown.**  The first process executes the program "b" with the arguments "b" and
"x"; the file shows the name alone. -/
theorem cmdline_hides_argv : ∃ w w' r, argvSystem.Reaches w ∧ processCurrent w.kernel = some 0 ∧
    w.smallExecve [[98], [120]] = some (true, w') ∧ processGet w'.kernel 1 = some 0 ∧
    System.exec (laterStep 0 1) ⟨w', 0, []⟩ smallReads = some r ∧ r.bytes = [98, 0] ∧
    (cmdlineOf [[98], [120]]).take 64 = [98, 0, 120, 0] := by
  obtain ⟨w, hw, hcur, hshown⟩ := smallExecve_shown
  obtain ⟨w', r, hexec, hget, hr, hbytes⟩ := hshown [[98], [120]] (by decide)
  exact ⟨w, w', r, hw, hcur, hexec, hget, hr, hbytes, rfl⟩

end LighthOS
