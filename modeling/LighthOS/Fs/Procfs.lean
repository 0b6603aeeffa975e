/-
# The processes in procfs

The root directory of `src/fs/procfs.c` lists the living processes by their pids.  Three pieces of code have
to agree for that: `process_info_at` of `src/kernel/process.c` counts through the living slots of the process
table, `utoa_dec` prints a pid, and `procfs_finddir` reads a name back with `is_all_digits` and looks it up with
`process_get`.

`alivePids` is the list of the pids of the living processes in the order of their slots.  The loops of
`process_info_at` and `process_get` are an access to it and a search in it (`processInfoAt_pid`,
`processGet_isSome_iff`), and `is_all_digits` inverts `utoa_dec` (`isAllDigits_utoaDec`).
-/

import LighthOS.Fs.Vfs
import LighthOS.Kernel.State

namespace LighthOS

/-! ### The process table -/

/-- `struct proc_info`. -/
structure ProcInfo where
  pid : ℕ
  parentPid : ℕ
  pgid : ℕ
  state : TaskState
  alive : Bool
  name : List UInt8
  root : List UInt8

/-- What `process_info_at` copies of a process. -/
def procInfo (k : Kernel) (p : Process) : ProcInfo where
  pid := p.pid
  parentPid := p.parentPid
  pgid := p.pgid
  state := match p.task with
    | some t => (k.tasks t).state
    | none => .dead
  alive := p.alive
  name := p.name
  root := p.root

/-- The loop of `process_info_at` over the given slots, when `seen` living ones were before. -/
def infoLoop (k : Kernel) (idx : ℕ) : List ℕ → ℕ → Option ProcInfo
  | [], _ => none
  | i :: slots, seen =>
      if !(k.procs i).alive then infoLoop k idx slots seen
      else if seen = idx then some (procInfo k (k.procs i))
      else infoLoop k idx slots (seen + 1)

/-- `process_info_at`, none for `-1`. -/
def processInfoAt (k : Kernel) (idx : ℕ) : Option ProcInfo := infoLoop k idx (List.range processMax) 0

/-- The slot holds a living process. -/
def Kernel.Live (k : Kernel) (i : ℕ) : Prop := i < processMax ∧ (k.procs i).alive = true

/-- The slots of the living processes. -/
def aliveSlots (k : Kernel) : List ℕ := (List.range processMax).filter fun i => (k.procs i).alive

/-- The pids of the living processes, in the order of their slots. -/
def alivePids (k : Kernel) : List ℕ := (aliveSlots k).map fun i => (k.procs i).pid

theorem infoLoop_eq (k : Kernel) (idx : ℕ) (slots : List ℕ) (seen : ℕ) (hle : seen ≤ idx) :
    infoLoop k idx slots seen
      = ((slots.filter fun i => (k.procs i).alive)[idx - seen]?).map fun i => procInfo k (k.procs i) := by
  induction slots generalizing seen with
  | nil => rfl
  | cons i slots ih =>
      rw [infoLoop, List.filter_cons]
      cases hi : (k.procs i).alive with
      | false => simpa [hi] using ih seen hle
      | true =>
          simp only [Bool.not_true, Bool.false_eq_true, if_false, if_true]
          by_cases heq : seen = idx
          · rw [if_pos heq, heq, Nat.sub_self]
            rfl
          · rw [if_neg heq, ih (seen + 1) (by omega), show idx - seen = idx - (seen + 1) + 1 by omega,
              List.getElem?_cons_succ]

/-- **`process_info_at` counts through the living processes.** -/
theorem processInfoAt_pid (k : Kernel) (idx : ℕ) : (processInfoAt k idx).map ProcInfo.pid = (alivePids k)[idx]? := by
  rw [processInfoAt, infoLoop_eq k idx _ 0 (Nat.zero_le idx), Nat.sub_zero, Option.map_map, alivePids,
    List.getElem?_map]
  rfl

theorem mem_alivePids {k : Kernel} {pid : ℕ} : pid ∈ alivePids k ↔ ∃ i, k.Live i ∧ (k.procs i).pid = pid := by
  simp only [alivePids, aliveSlots, Kernel.Live, List.mem_map, List.mem_filter, List.mem_range]

/-- **`process_get` finds the living processes.** -/
theorem processGet_isSome_iff (k : Kernel) (pid : ℕ) : (processGet k pid).isSome = true ↔ pid ∈ alivePids k := by
  rw [processGet, List.find?_isSome, mem_alivePids]
  simp only [Kernel.Live, List.mem_range, Bool.and_eq_true, beq_iff_eq, and_assoc]

/-! ### Numbers -/

/-- The number that a string of digits denotes. -/
def decimalValue (s : CString) : ℕ := s.foldl (fun v c => v * 10 + (c.toNat - '0'.toNat)) 0

/-- A string of digits. -/
def AllDigits (s : CString) : Prop := ∀ c ∈ s, '0' ≤ c ∧ c ≤ '9'

theorem digit_char {d : ℕ} (hd : d < 10) :
    '0' ≤ Char.ofNat ('0'.toNat + d) ∧ Char.ofNat ('0'.toNat + d) ≤ '9' ∧
      (Char.ofNat ('0'.toNat + d)).toNat - '0'.toNat = d := by
  have hall : ∀ d : Fin 10, '0' ≤ Char.ofNat ('0'.toNat + d) ∧ Char.ofNat ('0'.toNat + d) ≤ '9' ∧
      (Char.ofNat ('0'.toNat + d)).toNat - '0'.toNat = d := by decide
  exact hall ⟨d, hd⟩

/-- The digits in the buffer of `utoa_dec` denote the number, from the last one on. -/
theorem utoaDigits_spec (room v : ℕ) (hv : v < 10 ^ room) :
    AllDigits (utoaDigits room v) ∧
      (utoaDigits room v).foldr (fun c v => v * 10 + (c.toNat - '0'.toNat)) 0 = v := by
  induction room generalizing v with
  | zero =>
      rw [Nat.pow_zero, Nat.lt_one_iff] at hv
      exact ⟨by simp [AllDigits, utoaDigits], hv.symm⟩
  | succ room ih =>
      rw [utoaDigits]
      split_ifs with hzero
      · exact ⟨by simp [AllDigits], hzero.symm⟩
      · obtain ⟨hdigits, hvalue⟩ := ih (v / 10) (by rw [Nat.pow_succ] at hv; omega)
        obtain ⟨h₀, h₉, hd⟩ := digit_char (Nat.mod_lt v (by decide : 10 > 0))
        refine ⟨List.forall_mem_cons.2 ⟨⟨h₀, h₉⟩, hdigits⟩, ?_⟩
        rw [List.foldr_cons, hvalue, hd]
        omega

/-- **`utoa_dec`** prints digits that denote the number. -/
theorem utoaDec_spec {v : ℕ} (hv : v < 2 ^ 64) :
    utoaDec v ≠ [] ∧ AllDigits (utoaDec v) ∧ decimalValue (utoaDec v) = v := by
  unfold utoaDec
  split_ifs with hzero
  · subst hzero
    exact ⟨by decide, by simp [AllDigits], rfl⟩
  · obtain ⟨hdigits, hvalue⟩ := utoaDigits_spec 24 v (hv.trans (by decide))
    refine ⟨?_, ?_, ?_⟩
    · rw [utoaDigits, if_neg hzero]
      simp
    · intro c hc
      exact hdigits c (List.mem_reverse.1 hc)
    · rw [decimalValue, List.foldl_reverse]
      exact hvalue

/-- A number only grows with more digits. -/
theorem le_foldl_digits (s : CString) (v : ℕ) : v ≤ s.foldl (fun v c => v * 10 + (c.toNat - '0'.toNat)) v := by
  induction s generalizing v with
  | nil => exact le_rfl
  | cons c s ih =>
      rw [List.foldl_cons]
      have := ih (v * 10 + (c.toNat - '0'.toNat))
      omega

/-- One round of `is_all_digits`, none where it returns `0`. -/
def digitStep (v : ℕ) (c : Char) : Option ℕ :=
  if c < '0' ∨ '9' < c then none
  else if 0xFFFFFFFF < v * 10 + (c.toNat - '0'.toNat) then none
  else some (v * 10 + (c.toNat - '0'.toNat))

theorem isAllDigits_eq_foldlM (s : CString) : isAllDigits s = if s = [] then none else s.foldlM digitStep 0 := by
  rw [List.foldlM_eq_foldl]
  rfl

theorem digitStep_eq_some {v w : ℕ} {c : Char} :
    digitStep v c = some w ↔ ('0' ≤ c ∧ c ≤ '9') ∧ w = v * 10 + (c.toNat - '0'.toNat) ∧ w < 2 ^ 32 := by
  unfold digitStep
  split_ifs with hc hbig
  · rw [← Char.not_lt, ← Char.not_lt, ← not_or]
    simp [hc]
  · simp only [false_iff]
    omega
  · rw [not_or, Char.not_lt, Char.not_lt] at hc
    simp only [Option.some.injEq, hc, and_self, true_and]
    omega

/-- The loop of `is_all_digits`. -/
theorem foldlM_digitStep (s : CString) (v : ℕ) (hv : v < 2 ^ 32) (r : ℕ) :
    s.foldlM digitStep v = some r ↔
      AllDigits s ∧ s.foldl (fun v c => v * 10 + (c.toNat - '0'.toNat)) v = r ∧ r < 2 ^ 32 := by
  induction s generalizing v with
  | nil =>
      simp only [List.foldlM_nil, List.foldl_nil, AllDigits, List.not_mem_nil, false_implies, implies_true, true_and]
      exact ⟨fun h => by cases h; exact ⟨rfl, hv⟩, fun h => congrArg some h.1⟩
  | cons c s ih =>
      rw [List.foldlM_cons, List.foldl_cons, AllDigits, List.forall_mem_cons]
      constructor
      · intro h
        obtain ⟨w, hw, h⟩ := Option.bind_eq_some_iff.1 h
        obtain ⟨hc, rfl, hlt⟩ := digitStep_eq_some.1 hw
        obtain ⟨hs, hr⟩ := (ih _ hlt).1 h
        exact ⟨⟨hc, hs⟩, hr⟩
      · rintro ⟨⟨hc, hs⟩, hr, hlt⟩
        have hle := le_foldl_digits s (v * 10 + (c.toNat - '0'.toNat))
        have hw : v * 10 + (c.toNat - '0'.toNat) < 2 ^ 32 := by omega
        exact Option.bind_eq_some_iff.2 ⟨_, digitStep_eq_some.2 ⟨hc, rfl, hw⟩, (ih _ hw).2 ⟨hs, hr, hlt⟩⟩

/-- **`is_all_digits`** accepts the strings of digits that denote a number of 32 bits. -/
theorem isAllDigits_eq_some {s : CString} {v : ℕ} :
    isAllDigits s = some v ↔ s ≠ [] ∧ AllDigits s ∧ decimalValue s = v ∧ v < 2 ^ 32 := by
  rw [isAllDigits_eq_foldlM]
  split_ifs with hs
  · simp [hs]
  · rw [foldlM_digitStep s 0 (by decide) v]
    simp only [ne_eq, hs, not_false_eq_true, true_and, decimalValue]

/-- `is_all_digits` inverts `utoa_dec`. -/
theorem isAllDigits_utoaDec {v : ℕ} (hv : v < 2 ^ 32) : isAllDigits (utoaDec v) = some v := by
  obtain ⟨hne, hdigits, hvalue⟩ := utoaDec_spec (hv.trans (by decide))
  exact isAllDigits_eq_some.2 ⟨hne, hdigits, hvalue, hv⟩

theorem digitChar_eq {d : ℕ} (hd : d < 10) : Char.ofNat ('0'.toNat + d) = Nat.digitChar d := by
  have hall : ∀ d : Fin 10, Char.ofNat ('0'.toNat + d) = Nat.digitChar d := by decide
  exact hall ⟨d, hd⟩

/-- **`utoa_dec` prints decimal numbers.** -/
theorem utoaDec_eq_toDigits {v : ℕ} (hv : v < 2 ^ 64) : utoaDec v = Nat.toDigits 10 v := by
  have hdigits : ∀ room v, v < 10 ^ room → v ≠ 0 → (utoaDigits room v).reverse = Nat.toDigits 10 v := by
    intro room
    induction room with
    | zero => intro v hv hv₀; omega
    | succ room ih =>
        intro v hv hv₀
        rw [utoaDigits, if_neg hv₀, List.reverse_cons, Nat.toDigits_eq_if (by decide)]
        have hchar : Char.ofNat ('0'.toNat + v % 10) = Nat.digitChar (v % 10) :=
          digitChar_eq (Nat.mod_lt v (by decide))
        split_ifs with hsmall
        · rw [hchar, Nat.mod_eq_of_lt hsmall, Nat.div_eq_of_lt hsmall]
          cases room <;> rfl
        · rw [hchar, ih (v / 10) (by rw [Nat.pow_succ] at hv; omega) (by omega)]
  unfold utoaDec
  split_ifs with hzero
  · subst hzero
    rfl
  · exact hdigits 24 v (hv.trans (by decide)) hzero

/-! ### The files -/

section Files

variable {σ : Type}

/-- `new_node`, null where there is no memory for it. -/
def newNode (kind : ProcKind) (pid : ℕ) (s : FsState σ) : Option (Option VfsNode × FsState σ) :=
  s.newProcNode.map fun (ok, s) => (if ok then some (.proc kind pid) else none, s)

namespace Kernel

variable (k : Kernel)

/-- `procfs_readdir` over the process table. -/
def procfsReaddir (kind : ProcKind) (index : ℕ) : Option (CString × VfsType) :=
  match kind with
  | .root =>
      if index = 0 then some ("meminfo".toList, .file)
      else if index = 1 then some ("mounts".toList, .file)
      else (processInfoAt k (index - 2)).map fun info => (utoaDec info.pid, .dir)
  | .pidDir =>
      if index = 0 then some ("status".toList, .file)
      else if index = 1 then some ("cmdline".toList, .file)
      else none
  | _ => none

/-- `procfs_finddir` over the process table. -/
def procfsFinddir (kind : ProcKind) (pid : ℕ) (name : CString) (s : FsState σ) :
    Option (Option VfsNode × FsState σ) :=
  if name = ['.'] ∨ name = ['.', '.'] then some (none, s)
  else match kind with
    | .root =>
        if name = "meminfo".toList then newNode .meminfo 0 s
        else if name = "mounts".toList then newNode .mounts 0 s
        else if name = "self".toList then
          match processCurrent k with
          | none => some (none, s)
          | some i => newNode .pidDir (k.procs i).pid s
        else match isAllDigits name with
          | none => some (none, s)
          | some pid => if (processGet k pid).isSome then newNode .pidDir pid s else some (none, s)
    | .pidDir =>
        if (processGet k pid).isNone then some (none, s)
        else if name = "status".toList then newNode .pidStatus pid s
        else if name = "cmdline".toList then newNode .pidCmdline pid s
        else some (none, s)
    | _ => some (none, s)

/-- What the file systems see of the processes of a kernel. -/
def fsEnv (env : FsEnv σ) : FsEnv σ :=
  { env with
    pids := alivePids k
    current := (processCurrent k).map fun i => (k.procs i).pid }

/-- The directories of procfs as the VFS has them are those over the process table. -/
theorem procfsReaddir_eq (env : FsEnv σ) (kind : ProcKind) (index : ℕ) :
    LighthOS.procfsReaddir (k.fsEnv env) kind index = k.procfsReaddir kind index := by
  have hroot : ∀ n, ((alivePids k)[n]?).map (fun pid => (utoaDec pid, VfsType.dir))
      = (processInfoAt k n).map fun info => (utoaDec info.pid, VfsType.dir) := by
    intro n
    rw [← processInfoAt_pid, Option.map_map]
    rfl
  rcases kind with _ | _ | _ | _ | _ | _ <;> rcases index with _ | _ | n <;>
    first | rfl | exact hroot n

theorem procfsFinddir_eq (env : FsEnv σ) (kind : ProcKind) (pid : ℕ) (name : CString) (s : FsState σ) :
    LighthOS.procfsFinddir (k.fsEnv env) kind pid name s = k.procfsFinddir kind pid name s := by
  unfold LighthOS.procfsFinddir procLookup Kernel.procfsFinddir
  by_cases hdot : name = ['.'] ∨ name = ['.', '.']
  · simp only [if_pos hdot]
  simp only [if_neg hdot]
  cases kind with
  | root =>
      by_cases hmeminfo : name = "meminfo".toList
      · simp only [if_pos hmeminfo, newNode]
      by_cases hmounts : name = "mounts".toList
      · simp only [if_neg hmeminfo, if_pos hmounts, newNode]
      by_cases hself : name = "self".toList
      · simp only [if_neg hmeminfo, if_neg hmounts, if_pos hself, fsEnv]
        cases processCurrent k <;> rfl
      simp only [if_neg hmeminfo, if_neg hmounts, if_neg hself, fsEnv, ← processGet_isSome_iff]
      cases isAllDigits name with
      | none => rfl
      | some pid => cases hget : (processGet k pid).isSome <;> simp [Option.filter, hget, newNode]
  | pidDir =>
      simp only [fsEnv, ← processGet_isSome_iff, Option.isNone_iff_eq_none, Bool.not_eq_true,
        Option.isSome_eq_false_iff]
      by_cases hget : processGet k pid = none
      · simp only [if_pos hget]
      by_cases hstatus : name = "status".toList
      · simp only [if_neg hget, if_pos hstatus, newNode]
      by_cases hcmdline : name = "cmdline".toList
      · simp only [if_neg hget, if_neg hstatus, if_pos hcmdline, newNode]
      simp only [if_neg hget, if_neg hstatus, if_neg hcmdline]
  | meminfo => rfl
  | mounts => rfl
  | pidStatus => rfl
  | pidCmdline => rfl

theorem procfsReaddir_root (n : ℕ) :
    k.procfsReaddir .root (n + 2) = ((alivePids k)[n]?).map fun pid => (utoaDec pid, .dir) := by
  rw [← processInfoAt_pid, Option.map_map]
  rfl

end Kernel

theorem newNode_eq_some {kind : ProcKind} {pid : ℕ} {node : VfsNode} {s s' : FsState σ} :
    newNode kind pid s = some (some node, s') ↔ node = .proc kind pid ∧ s.newProcNode = some (true, s') := by
  unfold newNode
  cases s.newProcNode with
  | none => simp
  | some r =>
      obtain ⟨ok, s₁⟩ := r
      cases ok <;> simp [eq_comm (a := node)]

/-- A directory of a process comes from a number, or from `self`. -/
theorem Kernel.procfsFinddir_pidDir_iff (k : Kernel) {name : CString} (hself : name ≠ "self".toList) (pid : ℕ)
    (s s' : FsState σ) :
    k.procfsFinddir .root 0 name s = some (some (.proc .pidDir pid), s') ↔
      isAllDigits name = some pid ∧ pid ∈ alivePids k ∧ s.newProcNode = some (true, s') := by
  have hdigits : ∀ c, c ∈ name → ¬('0' ≤ c ∧ c ≤ '9') → isAllDigits name ≠ some pid := by
    intro c hc hno h
    exact hno ((isAllDigits_eq_some.1 h).2.1 c hc)
  unfold Kernel.procfsFinddir
  dsimp only
  split_ifs with hdot hmeminfo hmounts
  · have hno : isAllDigits name ≠ some pid := by
      rcases hdot with rfl | rfl <;> exact hdigits '.' (by simp) (by decide)
    simp [hno]
  · have hno : isAllDigits name ≠ some pid := hdigits 'm' (hmeminfo ▸ by decide) (by decide)
    simp [hno, newNode_eq_some]
  · have hno : isAllDigits name ≠ some pid := hdigits 'm' (hmounts ▸ by decide) (by decide)
    simp [hno, newNode_eq_some]
  · cases hd : isAllDigits name with
    | none => simp
    | some v =>
        simp only [Option.some.injEq]
        rw [← processGet_isSome_iff]
        by_cases hv : v = pid
        · subst hv
          split_ifs with hget <;> simp [hget, newNode_eq_some]
        · split_ifs with hget
          · rw [newNode_eq_some]
            simp [hv, eq_comm (a := pid)]
          · simp [hv]

theorem nodup_alivePids {k : Kernel}
    (hdistinct : ∀ i j, k.Live i → k.Live j → (k.procs i).pid = (k.procs j).pid → i = j) : (alivePids k).Nodup := by
  refine (List.nodup_range.filter _).map_on ?_
  intro i hi j hj
  simp only [List.mem_filter, List.mem_range] at hi hj
  exact hdistinct i j hi hj

theorem utoaDec_injective {v w : ℕ} (hv : v < 2 ^ 32) (hw : w < 2 ^ 32) (h : utoaDec v = utoaDec w) : v = w := by
  have := isAllDigits_utoaDec hv
  rw [h, isAllDigits_utoaDec hw] at this
  exact (Option.some.inj this).symm

/-- **`/proc` lists the living processes.**  Where their pids are distinct numbers of 32 bits, the indices of
the root from 2 on give the decimal pid of each living process once, up to their number.  The name of a living
process finds its directory, and a name other than `self` finds a directory of a process where it is a number,
with any zeros in front, that is the pid of a living process; both provided `new_node` has memory for it. -/
theorem proc_lists_processes (k : Kernel)
    (hdistinct : ∀ i j, k.Live i → k.Live j → (k.procs i).pid = (k.procs j).pid → i = j)
    (hpid : ∀ i, k.Live i → (k.procs i).pid < 2 ^ 32) :
    (∀ n, k.procfsReaddir .root (n + 2) = none ↔ (aliveSlots k).length ≤ n) ∧
    (∀ n entry, k.procfsReaddir .root (n + 2) = some entry →
      ∃ i, k.Live i ∧ entry = (Nat.toDigits 10 (k.procs i).pid, .dir)) ∧
    (∀ i, k.Live i → ∃! n, k.procfsReaddir .root (n + 2) = some (Nat.toDigits 10 (k.procs i).pid, .dir)) ∧
    (∀ i, k.Live i → ∀ s s' : FsState σ, s.newProcNode = some (true, s') →
      k.procfsFinddir .root 0 (Nat.toDigits 10 (k.procs i).pid) s
        = some (some (.proc .pidDir (k.procs i).pid), s')) ∧
    ∀ name, name ≠ "self".toList → ∀ pid, ∀ s s' : FsState σ,
      (k.procfsFinddir .root 0 name s = some (some (.proc .pidDir pid), s') ↔
        (name ≠ [] ∧ AllDigits name ∧ decimalValue name = pid ∧ ∃ i, k.Live i ∧ (k.procs i).pid = pid) ∧
          s.newProcNode = some (true, s')) := by
  have hdec : ∀ i, k.Live i → Nat.toDigits 10 (k.procs i).pid = utoaDec (k.procs i).pid := fun i hi =>
    (utoaDec_eq_toDigits ((hpid i hi).trans (by decide))).symm
  have hfind : ∀ name, name ≠ "self".toList → ∀ pid, ∀ s s' : FsState σ,
      (k.procfsFinddir .root 0 name s = some (some (.proc .pidDir pid), s') ↔
        (name ≠ [] ∧ AllDigits name ∧ decimalValue name = pid ∧ ∃ i, k.Live i ∧ (k.procs i).pid = pid) ∧
          s.newProcNode = some (true, s')) := by
    intro name hself pid s s'
    rw [k.procfsFinddir_pidDir_iff hself, isAllDigits_eq_some, mem_alivePids]
    constructor
    · rintro ⟨⟨hne, hdigits, hvalue, -⟩, hlive, hnew⟩
      exact ⟨⟨hne, hdigits, hvalue, hlive⟩, hnew⟩
    · rintro ⟨⟨hne, hdigits, hvalue, i, hi, rfl⟩, hnew⟩
      exact ⟨⟨hne, hdigits, hvalue, hpid i hi⟩, ⟨i, hi, rfl⟩, hnew⟩
  refine ⟨?_, ?_, ?_, ?_, hfind⟩
  · intro n
    rw [k.procfsReaddir_root, Option.map_eq_none_iff, List.getElem?_eq_none_iff, alivePids, List.length_map]
  · intro n entry h
    rw [k.procfsReaddir_root] at h
    obtain ⟨pid, hn, rfl⟩ := Option.map_eq_some_iff.1 h
    obtain ⟨i, hi, rfl⟩ := mem_alivePids.1 (List.mem_of_getElem? hn)
    exact ⟨i, hi, by rw [hdec i hi]⟩
  · intro i hi
    have hread : ∀ n, k.procfsReaddir .root (n + 2) = some (Nat.toDigits 10 (k.procs i).pid, .dir) ↔
        (alivePids k)[n]? = some (k.procs i).pid := by
      intro n
      rw [k.procfsReaddir_root, hdec i hi, Option.map_eq_some_iff]
      constructor
      · rintro ⟨pid, hn, heq⟩
        obtain ⟨j, hj, rfl⟩ := mem_alivePids.1 (List.mem_of_getElem? hn)
        rw [hn, utoaDec_injective (hpid j hj) (hpid i hi) (congrArg Prod.fst heq)]
      · intro hn
        exact ⟨_, hn, rfl⟩
    simp only [hread]
    obtain ⟨n, hn⟩ := List.mem_iff_getElem?.1 (mem_alivePids.2 ⟨i, hi, rfl⟩)
    refine ⟨n, hn, fun m hm => ?_⟩
    obtain ⟨hlt, -⟩ := List.getElem?_eq_some_iff.1 hm
    exact (List.getElem?_inj hlt (nodup_alivePids hdistinct)).1 (hm.trans hn.symm)
  · intro i hi s s' hnew
    obtain ⟨hne, hdigits, hvalue⟩ := utoaDec_spec ((hpid i hi).trans (by decide))
    rw [hdec i hi]
    refine (hfind _ ?_ _ s s').2 ⟨⟨hne, hdigits, hvalue, i, hi, rfl⟩, hnew⟩
    intro hself
    rw [hself] at hdigits
    exact absurd (hdigits 's' (by decide)) (by decide)

end Files

/-- A process table with the pids 1 and 12 in the slots 0 and 2. -/
def twoProcesses : Kernel where
  vm := ⟨fun _ _ => 0, ⟨fun _ => false, 0, 0, 0⟩, 0⟩
  tasks _ := .zero
  current := 0
  nextId := 1
  schedulingEnabled := true
  procs i :=
    if i = 0 then { Process.zero with pid := 1, alive := true }
    else if i = 2 then { Process.zero with pid := 12, alive := true }
    else .zero
  nextPid := 13
  gSpawning := none
  foregroundPgid := 1
  pipes _ := none

/-- The file systems at boot, on this heap. -/
def fsOnHeap (heap : Heap) : FsState Unit where
  mounts := []
  ram := ⟨heap, fun _ => ⟨[], .file, 0, 0, 0, 0, []⟩, 1⟩
  fat := ⟨(), ⟨fun _ => 0, 0, false⟩⟩

/-- The heap of `kernel_main`: `KHEAP_SIZE` bytes at `KHEAP_VA`. -/
def bootHeap : Heap := heapInit (fun _ => 0) 0xFFFFFFFF81000000 0x2000000

theorem twoProcesses_live {i : ℕ} (h : twoProcesses.Live i) :
    i = 0 ∧ (twoProcesses.procs i).pid = 1 ∨ i = 2 ∧ (twoProcesses.procs i).pid = 12 := by
  by_cases h₀ : i = 0
  · subst h₀
    exact Or.inl ⟨rfl, rfl⟩
  by_cases h₂ : i = 2
  · subst h₂
    exact Or.inr ⟨rfl, rfl⟩
  have halive := h.2
  simp only [twoProcesses, if_neg h₀, if_neg h₂] at halive
  cases halive

theorem twoProcesses_distinct (i j : ℕ) (hi : twoProcesses.Live i) (hj : twoProcesses.Live j)
    (h : (twoProcesses.procs i).pid = (twoProcesses.procs j).pid) : i = j := by
  rcases twoProcesses_live hi with ⟨hi, hi'⟩ | ⟨hi, hi'⟩ <;>
    rcases twoProcesses_live hj with ⟨hj, hj'⟩ | ⟨hj, hj'⟩ <;> omega

/-- The hypotheses of `proc_lists_processes` are satisfiable: the processes 1 and 12 are listed, and `0012`
finds the second one. -/
theorem proc_lists_processes_two :
    (∃! n, twoProcesses.procfsReaddir .root (n + 2) = some ("12".toList, .dir)) ∧
    ∃ s', (fsOnHeap bootHeap).newProcNode = some (true, s') ∧
      twoProcesses.procfsFinddir .root 0 "0012".toList (fsOnHeap bootHeap) = some (some (.proc .pidDir 12), s') := by
  have hnew : (fsOnHeap bootHeap).newProcNode.map Prod.fst = some true := by decide +kernel
  obtain ⟨⟨ok, s'⟩, hnew, rfl⟩ := Option.map_eq_some_iff.1 hnew
  have hlive : twoProcesses.Live 2 := ⟨by decide, rfl⟩
  obtain ⟨-, -, honce, -, hfind⟩ := @proc_lists_processes Unit twoProcesses twoProcesses_distinct
    (fun i hi => by rcases twoProcesses_live hi with ⟨-, h⟩ | ⟨-, h⟩ <;> rw [h] <;> decide)
  refine ⟨honce 2 hlive, s', hnew, (hfind _ (by decide) 12 _ s').2 ⟨⟨by decide, ?_, by decide, 2, hlive, rfl⟩, hnew⟩⟩
  simp [AllDigits]

/-- **A listed process is not found on a full heap.**  One `kmalloc` has taken the whole heap: `/proc` lists
the process 12, but `new_node` has no memory for its directory. -/
theorem proc_not_found_on_full_heap : ∃ p heap, kmalloc bootHeap (0x2000000 - 32) = some (p, heap) ∧ p ≠ 0 ∧
    (∀ i j, twoProcesses.Live i → twoProcesses.Live j →
      (twoProcesses.procs i).pid = (twoProcesses.procs j).pid → i = j) ∧
    twoProcesses.procfsReaddir .root 3 = some ("12".toList, .dir) ∧
    ∃ s', twoProcesses.procfsFinddir .root 0 "12".toList (fsOnHeap heap) = some (none, s') := by
  have hfull : (kmalloc bootHeap (0x2000000 - 32)).any (fun r => decide (r.1 ≠ 0 ∧
      (twoProcesses.procfsFinddir .root 0 "12".toList (fsOnHeap r.2)).map Prod.fst = some none)) = true := by
    decide +kernel
  obtain ⟨⟨p, heap⟩, hk, hw⟩ := (Option.any_eq_true _ _).1 hfull
  obtain ⟨hp, hfind⟩ := of_decide_eq_true hw
  obtain ⟨⟨r, s'⟩, hfind, rfl⟩ := Option.map_eq_some_iff.1 hfind
  exact ⟨p, heap, hk, hp, twoProcesses_distinct, by decide, s', hfind⟩

end LighthOS
