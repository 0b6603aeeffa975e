/-
# Descriptors and pipe ends

The descriptor functions of `src/kernel/process.c` that work on pipe ends.  Every
entry of type `FD_PIPE_READ` or `FD_PIPE_WRITE` is to be counted by its pipe, and
a pipe with no end left is freed.
-/

import LighthOS.Kernel.State

namespace LighthOS

/-- Count a new reference to the pipe end that an entry names. -/
def addRef (k : Kernel) (e : FdEntry) : Kernel :=
  match e.type with
  | .pipeRead => { k with pipes := Function.update k.pipes e.pipe ((k.pipes e.pipe).map pipeAddReader) }
  | .pipeWrite => { k with pipes := Function.update k.pipes e.pipe ((k.pipes e.pipe).map pipeAddWriter) }
  | _ => k

/-- Change the counts of a pipe, and free it where no end is left. -/
def closeEnd (k : Kernel) (a : ℕ) (f : Pipe → Pipe) : Kernel :=
  let p := (k.pipes a).bind fun p => if pipeMaybeFree (f p) then none else some (f p)
  { k with pipes := Function.update k.pipes a p }

/-- `fd_drop_ref` for the entry `j` of the process `i`. -/
def fdDropRef (k : Kernel) (i j : ℕ) : Kernel :=
  let e := (k.procs i).fds j
  let k := match e.type with
    | .pipeRead => closeEnd k e.pipe pipeCloseReader
    | .pipeWrite => closeEnd k e.pipe pipeCloseWriter
    | _ => k
  k.setProc i fun p => { p with fds := Function.update p.fds j .zero }

/-- `fd_close`: whether it succeeded. -/
def fdClose (k : Kernel) (fd : ℤ) : Bool × Kernel :=
  match processCurrent k with
  | none => (false, k)
  | some i =>
      if fd < 0 ∨ (fdMax : ℤ) ≤ fd then (false, k)
      else
        match ((k.procs i).fds fd.toNat).type with
        | .none => (false, k)
        | .console => (true, k)
        | _ => (true, fdDropRef k i fd.toNat)

/-- The entries that `fd_pipe` takes: the first two that are free. -/
def freeFds (p : Process) : List ℕ :=
  ((List.range' 3 (fdMax - 3)).filter fun j => (p.fds j).type == .none).take 2

/-- `fd_pipe`, with the address that `kmalloc` returns: the two descriptors. -/
def fdPipe (k : Kernel) (addr : ℕ) : Option (ℕ × ℕ) × Kernel :=
  match processCurrent k with
  | none => (none, k)
  | some i =>
      match freeFds (k.procs i) with
      | [rfd, wfd] =>
          if addr = 0 then (none, k)
          else
            let k := { k with
              pipes := Function.update k.pipes addr (some (pipeAddWriter (pipeAddReader pipeCreate))) }
            (some (rfd, wfd), k.setProc i fun p =>
              let fds := Function.update p.fds rfd { p.fds rfd with type := .pipeRead, pipe := addr }
              { p with fds := Function.update fds wfd { fds wfd with type := .pipeWrite, pipe := addr } })
      | _ => (none, k)

/-- `fd_dup2`: whether it succeeded. -/
def fdDup2 (k : Kernel) (oldfd newfd : ℤ) : Bool × Kernel :=
  match processCurrent k with
  | none => (false, k)
  | some i =>
      if oldfd < 0 ∨ (fdMax : ℤ) ≤ oldfd then (false, k)
      else if newfd < 0 ∨ (fdMax : ℤ) ≤ newfd then (false, k)
      else if ((k.procs i).fds oldfd.toNat).type = .none then (false, k)
      else if oldfd = newfd then (true, k)
      else
        let k := match ((k.procs i).fds newfd.toNat).type with
          | .file | .pipeRead | .pipeWrite => fdDropRef k i newfd.toNat
          | _ => k
        let e := (k.procs i).fds oldfd.toNat
        (true, addRef (k.setProc i fun p => { p with fds := Function.update p.fds newfd.toNat e }) e)

/-! ### What the descriptor functions leave alone -/

/-- What a function on descriptors leaves alone: all but the pipes and the
descriptors. -/
structure OutsideFds (k k' : Kernel) : Prop where
  vm : k'.vm = k.vm
  tasks : k'.tasks = k.tasks
  current : k'.current = k.current
  gSpawning : k'.gSpawning = k.gSpawning
  schedulingEnabled : k'.schedulingEnabled = k.schedulingEnabled
  procs : ∀ i, ∃ fds, k'.procs i = { k.procs i with fds := fds }

namespace OutsideFds

theorem refl (k : Kernel) : OutsideFds k k := ⟨rfl, rfl, rfl, rfl, rfl, fun _ => ⟨_, rfl⟩⟩

theorem trans {k k₁ k₂ : Kernel} (h₁ : OutsideFds k k₁) (h₂ : OutsideFds k₁ k₂) : OutsideFds k k₂ where
  vm := h₂.vm.trans h₁.vm
  tasks := h₂.tasks.trans h₁.tasks
  current := h₂.current.trans h₁.current
  gSpawning := h₂.gSpawning.trans h₁.gSpawning
  schedulingEnabled := h₂.schedulingEnabled.trans h₁.schedulingEnabled
  procs i := by
    obtain ⟨fds₁, he₁⟩ := h₁.procs i
    obtain ⟨fds₂, he₂⟩ := h₂.procs i
    exact ⟨fds₂, by rw [he₂, he₁]⟩

theorem setFds (k : Kernel) (i : ℕ) (g : Process → ℕ → FdEntry) :
    OutsideFds k (k.setProc i fun p => { p with fds := g p }) := by
  refine ⟨rfl, rfl, rfl, rfl, rfl, fun j => ?_⟩
  rw [Kernel.setProc_procs]
  split_ifs with hj
  · exact ⟨_, by rw [hj]⟩
  · exact ⟨_, rfl⟩

theorem setPipes (k : Kernel) (pipes : ℕ → Option Pipe) : OutsideFds k { k with pipes := pipes } :=
  ⟨rfl, rfl, rfl, rfl, rfl, fun _ => ⟨_, rfl⟩⟩

theorem addRef (k : Kernel) (e : FdEntry) : OutsideFds k (addRef k e) := by
  unfold LighthOS.addRef
  split
  · exact setPipes k _
  · exact setPipes k _
  · exact refl k

theorem fdDropRef (k : Kernel) (i j : ℕ) : OutsideFds k (fdDropRef k i j) := by
  have hclose : ∀ a f, OutsideFds k (closeEnd k a f) := fun _ _ => setPipes k _
  unfold LighthOS.fdDropRef
  simp only
  split
  · exact (hclose _ _).trans (setFds _ _ _)
  · exact (hclose _ _).trans (setFds _ _ _)
  · exact setFds _ _ _

theorem fdClose (k : Kernel) (fd : ℤ) : OutsideFds k (fdClose k fd).2 := by
  unfold LighthOS.fdClose
  split
  · exact refl k
  · split_ifs
    · exact refl k
    · split
      · exact refl k
      · exact refl k
      · exact fdDropRef _ _ _

theorem fdPipe (k : Kernel) (addr : ℕ) : OutsideFds k (fdPipe k addr).2 := by
  unfold LighthOS.fdPipe
  split
  · exact refl k
  · split
    · split_ifs
      · exact refl k
      · simp only
        exact (setPipes k _).trans (setFds _ _ _)
    · exact refl k

theorem fdDup2 (k : Kernel) (oldfd newfd : ℤ) : OutsideFds k (fdDup2 k oldfd newfd).2 := by
  unfold LighthOS.fdDup2
  split
  · exact refl k
  · split_ifs
    · exact refl k
    · exact refl k
    · exact refl k
    · exact refl k
    · simp only
      refine trans ?_ ((setFds _ _ _).trans (addRef _ _))
      split
      · exact fdDropRef _ _ _
      · exact fdDropRef _ _ _
      · exact fdDropRef _ _ _
      · exact refl k

end OutsideFds

end LighthOS
