/-
# Signal dispositions

What becomes of `sig_handlers` and `sig_delivering` when a process forks and when it
executes another program.  `process_fork` gives the child a table of zeros, whatever the
parent has installed or ignored (`processFork_handlers`), and
`process_execve_from_memory` leaves the table and the flag as they were, with handler
addresses of a program that is gone (`processExecve_handlers`).  Both do what they should
exactly where there is nothing to do (`dispositions_follow_iff`).
-/

import LighthOS.Kernel.Moves

namespace LighthOS

/-- A process has the default disposition for every signal. -/
def Process.AllDefault (p : Process) : Prop := ∀ s < nsig, p.sigHandlers s = 0

/-- A process has no handler: it ignores a signal or has the default for it. -/
def Process.NoHandler (p : Process) : Prop := ∀ s < nsig, p.sigHandlers s ≤ 1

/-- Two processes have the same dispositions. -/
def Process.SameDispositions (p p' : Process) : Prop := ∀ s < nsig, p.sigHandlers s = p'.sigHandlers s

/-- What a successful `execve` should leave of the dispositions: no handler of the old
program, the ignored signals, and no handler that is running. -/
structure Process.ExecReset (p p' : Process) : Prop where
  noHandler : p'.NoHandler
  ignored : ∀ s < nsig, p.sigHandlers s = 1 → p'.sigHandlers s = 1
  notDelivering : p'.sigDelivering = false

instance (p : Process) : Decidable p.AllDefault := inferInstanceAs (Decidable (∀ s < nsig, p.sigHandlers s = 0))

instance (p : Process) : Decidable p.NoHandler := inferInstanceAs (Decidable (∀ s < nsig, p.sigHandlers s ≤ 1))

instance (p p' : Process) : Decidable (p.SameDispositions p') :=
  inferInstanceAs (Decidable (∀ s < nsig, p.sigHandlers s = p'.sigHandlers s))

/-- **`process_fork`**: the child is in the slot that `process_alloc` found, with a table of
zeros, and the parent is as it was. -/
theorem processFork_handlers {k k' : Kernel} {stackBase pid : ℕ}
    (h : processFork k stackBase = some (some pid, k')) :
    ∃ parent child, processCurrent k = some parent ∧ freeProc k.procs = some child ∧
      (k'.procs child).alive = true ∧ (k'.procs child).pid = pid ∧
      (k'.procs child).sigHandlers = (fun _ => 0) ∧
      (k'.procs parent).sigHandlers = (k.procs parent).sigHandlers := by
  rcases Births.processFork (S := fun _ => False) h with ⟨-, hr, -⟩ | ⟨parent, name, hp, -, hb⟩
  · cases hr
  cases hb with
  | @born i k₁ _ _ hc _ hb =>
      obtain ⟨⟨task, entry, rsp, hprocs⟩, hpid⟩ := hb.procs
      obtain ⟨_, _, _, _, _, _, hchild⟩ := hc.child
      have halive := (processCurrent_eq_some hp).2.1
      have hne : parent ≠ i := by
        rintro rfl
        rw [(freeProc_spec hc.free).2] at halive
        cases halive
      have hi := hpid pid rfl
      have hparent : k'.procs parent = k.procs parent := by
        rw [hprocs, if_neg hne, hc.old parent hne]
        rcases reapedProcs_eq k.procs parent with he | ⟨hd, -⟩
        · exact he
        · exact absurd (hd.symm.trans halive) Bool.false_ne_true
      rw [hchild] at hi
      refine ⟨parent, i, hp, hc.free, ?_, ?_, ?_, by rw [hparent]⟩ <;> rw [hprocs, if_pos rfl, hchild]
      · rfl
      · exact hi
      · rfl

/-- **`process_execve_from_memory`** leaves the dispositions alone. -/
theorem processExecve_handlers {k k' : Kernel} {name : List UInt8} {elf : Image}
    {files : List UInt8 → Option Image} {argv envp : Option (List (List UInt8))}
    (h : processExecve k name elf files argv envp = some (true, k')) :
    ∃ i, processCurrent k = some i ∧ (k'.procs i).sigHandlers = (k.procs i).sigHandlers ∧
      (k'.procs i).sigDelivering = (k.procs i).sigDelivering := by
  rcases processExecve_cases h with ⟨hr, -⟩ | ⟨-, i, vm, entry, rsp, hi, -, rfl⟩
  · cases hr
  · exact ⟨i, hi, by simp, by simp⟩

/-- **Dispositions follow the life of a process exactly where there are none.**  After a
successful `fork` the child's dispositions are the parent's if and only if the parent has
the default for every signal; after a successful `execve` no handler of the old program is
left, the ignored signals are still ignored and no handler is marked as running if and only
if there was no handler before, and none was running. -/
theorem dispositions_follow_iff (k : Kernel) :
    (∀ stackBase pid k', processFork k stackBase = some (some pid, k') →
      ∃ parent child, processCurrent k = some parent ∧ (k'.procs child).alive = true ∧
        (k'.procs child).pid = pid ∧
        ((k'.procs child).SameDispositions (k'.procs parent) ↔ (k.procs parent).AllDefault)) ∧
    ∀ name elf files argv envp k', processExecve k name elf files argv envp = some (true, k') →
      ∃ i, processCurrent k = some i ∧ ((k.procs i).ExecReset (k'.procs i) ↔
        (k.procs i).NoHandler ∧ (k.procs i).sigDelivering = false) := by
  refine ⟨fun stackBase pid k' h => ?_, fun name elf files argv envp k' h => ?_⟩
  · obtain ⟨parent, child, hp, -, halive, hpid, hzero, hsame⟩ := processFork_handlers h
    refine ⟨parent, child, hp, halive, hpid, ?_⟩
    unfold Process.SameDispositions Process.AllDefault
    rw [hzero, hsame]
    exact ⟨fun hs s hlt => (hs s hlt).symm, fun hs s hlt => (hs s hlt).symm⟩
  · obtain ⟨i, hi, hhandlers, hdelivering⟩ := processExecve_handlers h
    refine ⟨i, hi, fun hr => ⟨?_, hdelivering ▸ hr.notDelivering⟩, fun hc => ⟨?_, ?_, ?_⟩⟩
    · have hn := hr.noHandler
      unfold Process.NoHandler at hn ⊢
      rwa [hhandlers] at hn
    · unfold Process.NoHandler
      rw [hhandlers]
      exact hc.1
    · intro s _ hs
      rw [hhandlers]
      exact hs
    · rw [hdelivering]
      exact hc.2

/-- The small program is executed under the name "b". -/
def smallExecve (k : Kernel) : Option (Bool × Kernel) :=
  processExecve k [98] smallImage (fun _ => none) none none

/-- The hypotheses in `dispositions_follow_iff` are satisfiable: the first process forks and
executes a program, with the default for every signal. -/
theorem dispositions_follow_iff_first : ∃ k k₁ k₂ parent child, kernelSystem.Reaches k ∧
    processFork k 0x2000 = some (some 2, k₁) ∧ smallExecve k = some (true, k₂) ∧
    (k₁.procs child).SameDispositions (k₁.procs parent) ∧ (k.procs parent).ExecReset (k₂.procs parent) := by
  have hrun : (smallKernel.bind fun k => System.exec kernelRun k startOps).any (fun k => decide (
      processCurrent k = some 0 ∧ (k.procs 0).AllDefault ∧ (k.procs 0).NoHandler ∧
      (k.procs 0).sigDelivering = false ∧ (processFork k 0x2000).map Prod.fst = some (some 2) ∧
      (smallExecve k).map Prod.fst = some true)) = true := by decide +kernel
  obtain ⟨k, hreach, hcur, hdef, hno, hdel, hfork, hexec⟩ := System.exists_reaches init_smallKernel hrun
  obtain ⟨⟨r₁, k₁⟩, hfork, rfl⟩ := Option.map_eq_some_iff.1 hfork
  obtain ⟨⟨r₂, k₂⟩, hexec, rfl⟩ := Option.map_eq_some_iff.1 hexec
  obtain ⟨parent, child, hp, -, -, hsame⟩ := (dispositions_follow_iff k).1 _ _ _ hfork
  obtain ⟨i, hi, hreset⟩ := (dispositions_follow_iff k).2 _ _ _ _ _ _ hexec
  cases hcur.symm.trans hp
  cases hcur.symm.trans hi
  exact ⟨k, k₁, k₂, 0, child, hreach, hfork, hexec, hsame.2 hdef, hreset.2 ⟨hno, hdel⟩⟩

/-- **Dispositions are lost by `fork` and kept by `execve`.**  The first process ignores
`SIG_INT` and has a handler for `SIG_TERM`; its child has neither, and the handler is still
installed after it has executed another program. -/
theorem dispositions_lost_and_kept : ∃ k k₁ k₂, kernelSystem.Reaches k ∧
    processFork k 0x2000 = some (some 2, k₁) ∧ smallExecve k = some (true, k₂) ∧
    ¬(k₁.procs 1).SameDispositions (k₁.procs 0) ∧ (k₁.procs 1).pid = 2 ∧
    ¬(k.procs 0).ExecReset (k₂.procs 0) ∧ (k₂.procs 0).sigHandlers sigTerm = 0x400100 := by
  have hrun : (smallKernel.bind fun k => System.exec kernelRun k
      (startOps ++ [.signal sigInt 1, .signal sigTerm 0x400100])).any (fun k => decide (
      ((processFork k 0x2000).any fun r => decide (r.1 = some 2 ∧
        ¬(r.2.procs 1).SameDispositions (r.2.procs 0) ∧ (r.2.procs 1).pid = 2)) = true ∧
      ((smallExecve k).any fun r => decide (r.1 = true ∧
        (r.2.procs 0).sigHandlers sigTerm = 0x400100)) = true)) = true := by decide +kernel
  obtain ⟨k, hreach, hfork, hexec⟩ := System.exists_reaches init_smallKernel hrun
  obtain ⟨⟨r₁, k₁⟩, hfork, hw₁⟩ := (Option.any_eq_true _ _).1 hfork
  obtain ⟨⟨r₂, k₂⟩, hexec, hw₂⟩ := (Option.any_eq_true _ _).1 hexec
  obtain ⟨rfl, hlost, hpid⟩ := of_decide_eq_true hw₁
  obtain ⟨rfl, hkept⟩ := of_decide_eq_true hw₂
  refine ⟨k, k₁, k₂, hreach, hfork, hexec, hlost, hpid, fun hr => ?_, hkept⟩
  have hle := hr.noHandler sigTerm (by decide)
  dsimp only at hkept
  omega

end LighthOS
