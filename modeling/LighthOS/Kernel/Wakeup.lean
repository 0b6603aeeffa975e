/-
# Waking up from `SYS_PAUSE`

`SYS_PAUSE` blocks its task until a signal comes: `process_kill`, `signal_group` and
`process_tick_alarms` make the task ready when they mark a signal.  But `SYS_PAUSE`
does not look at the signals that are pending already.  A signal that comes while a
handler runs stays pending, `SYS_SIGRETURN` goes back to user mode without delivering
it, and a process that then pauses sleeps with a signal pending
(`pause_loses_wakeup`).

Where a process pauses with no signal pending, or in a handler, nobody sleeps with a
signal that could be delivered (`no_lost_wakeup`).
-/

import LighthOS.Kernel.Scheduled

namespace LighthOS

/-- No living process is blocked while a signal is pending that could be delivered. -/
def NoLostWakeup (k : Kernel) : Prop :=
  ∀ i t, (k.procs i).alive = true → (k.procs i).task = some t → (k.tasks t).state = .blocked →
    (∀ s < nsig, (k.procs i).sigPending s = false) ∨ (k.procs i).sigDelivering = true

section Moves

variable {k k' : Kernel}

/-- No move blocks a task. -/
theorem Move.blocked {E : Scope} (hm : Move E k k') {t : ℕ} (h : (k'.tasks t).state = .blocked) :
    (k.tasks t).state = .blocked := by
  rcases hm.state_cases t with he | ⟨hne, -⟩ | ⟨he, -⟩
  · exact he ▸ h
  · exact absurd h hne
  · rw [he] at h
    cases h

/-- **The task that runs is not blocked.** -/
theorem Move.awake {E : Scope} {o : List ℕ} (h : Scheduled k o)
    (hc : (k.tasks k.current).state ≠ .blocked) (hm : Move E k k') : (k'.tasks k'.current).state ≠ .blocked := by
  rcases hm.current_cases with he | ⟨enabled, hs⟩
  · exact fun hb => hc (hm.blocked (he ▸ hb))
  · rw [(h.switchTask enabled hs).2]
    simp

theorem NoLostWakeup.switchTask (h : NoLostWakeup k) (hs : switchTask k = some k')
    (he : k.schedulingEnabled = true) : NoLostWakeup k' := by
  intro i t hi ht hb
  have hb₀ := (Move.switch he hs : Move .none _ _).blocked hb
  rw [(switchTask_outside hs).1.procs] at hi ht ⊢
  exact h i t hi ht hb₀

/-- An old process. -/
theorem NoLostWakeup.kept (h : NoLostWakeup k) {i t : ℕ} {p : Process} (hk : (k.procs i).Kept p)
    (hi : p.alive = true) (ht : p.task = some t) (hb : (k.tasks t).state = .blocked) :
    (∀ s < nsig, p.sigPending s = false) ∨ p.sigDelivering = true := by
  rcases h i t (hk.alive ▸ hi) (hk.task ▸ ht) hb with hnone | hdel
  · exact Or.inl fun s hlt => Bool.eq_false_iff.2 fun hs =>
      Bool.false_ne_true ((hnone s hlt).symm.trans (hk.pending s hs))
  · exact Or.inr (hk.delivering.trans hdel)

/-- **A move loses no wake-up.** -/
theorem NoLostWakeup.move {E : Scope} (h : NoLostWakeup k)
    (hc : (k.tasks k.current).state ≠ .blocked) (hm : Move E k k') : NoLostWakeup k' := by
  intro i t hi ht hb
  have hb₀ := hm.blocked hb
  cases hm with
  | other _ procs =>
      rw [procs] at hi ht ⊢
      exact h i t hi ht hb₀
  | procs procs kept =>
      exact h.kept (kept i) hi ht hb₀
  | reap procs reaps =>
      rcases reaps i with he | ⟨hdead, he⟩
      · simp only [he] at hi ht ⊢
        exact h i t hi ht hb₀
      · simp only [he] at hi
        exact absurd (hdead.symm.trans hi) (by simp)
  | @handle j f cur handles =>
      rw [Kernel.setProc_procs] at hi ht ⊢
      split_ifs at hi ht ⊢ with hij
      · -- the current process is not blocked
        obtain ⟨regs, b, he, -⟩ := handles (k.procs j)
        rw [he] at ht
        have hcur := (processCurrent_eq_some cur).2.2
        obtain rfl : t = k.current := Option.some.inj (ht.symm.trans hcur)
        exact absurd hb₀ hc
      · exact h i t hi ht hb₀
  | @disposition j signo handler =>
      rw [Kernel.setProc_procs] at hi ht ⊢
      split_ifs at hi ht ⊢ with hij
      · subst hij
        exact h i t hi ht hb₀
      · exact h i t hi ht hb₀
  | @pend j signo alive =>
      have hprocs : (pendSignal k j signo).procs i = if i = j then { k.procs j with
          sigPending := Function.update (k.procs j).sigPending signo true } else k.procs i := by
        obtain ⟨o, -, he⟩ := pendSignal_eq k j signo
        rw [he, Kernel.setTaskState_procs, Kernel.setProc_procs]
      by_cases hij : i = j
      · -- its task has been woken up
        subst hij
        have htask : (k.procs i).task = some t := by
          rw [← ht, hprocs, if_pos rfl]
        rw [pendSignal, if_pos (by simp [htask, hb₀]), Kernel.setTaskState_state, if_pos htask] at hb
        cases hb
      · rw [hprocs, if_neg hij] at hi ht ⊢
        exact h i t hi ht hb₀
  | state =>
      rw [Kernel.setTaskState_procs] at hi ht ⊢
      exact h i t hi ht hb₀
  | frame => exact h i t hi ht hb₀
  | trampoline hs =>
      obtain ⟨fr, g, rfl⟩ := spawnTrampoline_eq hs
      exact h i t hi ht hb₀
  | @ends j f _ alive dead =>
      rw [Kernel.setTaskState_procs, Kernel.setProc_procs] at hi ht ⊢
      split_ifs at hi ht ⊢ with hij
      · obtain ⟨code, he⟩ := dead (k.procs j)
        rw [he] at hi
        cases hi
      · exact h i t hi ht hb₀
  | switch enabled hs => exact h.switchTask hs enabled i t hi ht hb

end Moves

/-! ### Runs -/

/-- Nobody sleeps with a signal, and the ring of tasks is intact. -/
structure Wakeful (k : Kernel) : Prop where
  ring : ∃ o, Scheduled k o
  awake : (k.tasks k.current).state ≠ .blocked
  wakeup : NoLostWakeup k

namespace Wakeful

variable {k k' : Kernel}

theorem moves {E : Scope} (h : Wakeful k) (hm : Moves E k k') : Wakeful k' := by
  refine hm.invariant h fun k₁ k₂ h hm => ?_
  obtain ⟨o, ho⟩ := h.ring
  exact ⟨ho.move hm, hm.awake ho h.awake, h.wakeup.move h.awake hm⟩

/-- **A new task** is ready, and no other one is blocked by it. -/
theorem born (h : Wakeful k) {name : List UInt8} {i : ℕ} {r : Option ℕ} {S : ℕ → Prop} (hname : name ≠ [])
    (hcur : (k.tasks k.current).state ≠ .dead) (hb : Born S k name i r k') : Wakeful k' := by
  obtain ⟨o, ho⟩ := h.ring
  have hring := ho.born hname hcur hb
  -- what `task_alloc` leaves of the processes and of the blocked tasks
  have halloc : ∀ {stackBase r k₁}, taskAlloc k name stackBase = some (r, k₁) →
      k₁.procs = k.procs ∧ k₁.current = k.current ∧
        ∀ u, (k₁.tasks u).state = .blocked → (k.tasks u).state = .blocked := by
    intro stackBase r k₁ ha
    obtain ⟨hout, hc⟩ := taskAlloc_outside ha
    refine ⟨hout.procs, hc, fun u hu => ?_⟩
    rcases taskAlloc_tasks ha u with ⟨next, he⟩ | ⟨-, he, -⟩
    · rw [he] at hu
      exact hu
    · rw [he] at hu
      cases hu
  have hlaunch : ∀ {stackBase t pml4 fr f k₁} (g : Option ℕ), taskAlloc k name stackBase = some (some t, k₁) →
      (∀ p, (f p).task = some t) → (∃ o', Scheduled (launch { k₁ with gSpawning := g } i t pml4 fr f) o') →
      Wakeful (launch { k₁ with gSpawning := g } i t pml4 fr f) := by
    intro stackBase t pml4 fr f k₁ g ha hf hr
    obtain ⟨hprocs, hc, hblocked⟩ := halloc ha
    obtain ⟨-, -, -, hready⟩ := (ho.taskAlloc hname hcur ha).2 t rfl
    refine ⟨hr, fun hb => h.awake (hblocked _ ?_), fun j u hj hu hb => ?_⟩
    · rw [launch_state] at hb
      rw [← hc]
      exact hb
    · rw [launch_state] at hb
      simp only [launch_procs, hprocs] at hj hu ⊢
      split_ifs at hj hu ⊢ with hji
      · rw [hf, Option.some.injEq] at hu
        rw [← hu, hready] at hb
        cases hb
      · exact h.wakeup j u hj hu (hblocked u hb)
  have hgone : ∀ {k₁ : Kernel} {vm : Vm}, k₁.procs = k.procs → k₁.current = k.current →
      (∀ u, (k₁.tasks u).state = .blocked → (k.tasks u).state = .blocked) →
      (∃ o', Scheduled (abandon { k₁ with vm := vm } i) o') → Wakeful (abandon { k₁ with vm := vm } i) := by
    intro k₁ vm hprocs hc hblocked hr
    refine ⟨hr, fun hb => h.awake (hblocked _ (hc ▸ hb)), fun j u hj hu hb => ?_⟩
    simp only [abandon, Kernel.setProc_procs, hprocs] at hj hu ⊢
    split_ifs at hj hu ⊢
    exact h.wakeup j u hj hu (hblocked u hb)
  cases hb with
  | gaveUp => exact hgone rfl rfl (fun _ hu => hu) hring
  | failed ha =>
      obtain ⟨hprocs, hc, hblocked⟩ := halloc ha
      exact hgone hprocs hc hblocked hring
  | spawned ha _ => exact hlaunch (some i) ha (fun _ => rfl) hring
  | @forked _ _ _ k₁ ha => exact hlaunch k₁.gSpawning ha (fun _ => rfl) hring

/-- The processes change, and the old ones are kept. -/
theorem of_old (h : Wakeful k) (ho : OutsideProcs k k') (hr : ∃ o, Scheduled k' o)
    (hp : ∀ j, (k'.procs j).alive = true → (k'.procs j).task ≠ none → (k.procs j).Kept (k'.procs j)) :
    Wakeful k' := by
  refine ⟨hr, ?_, fun j t hj ht hb => ?_⟩
  · rw [ho.tasks, ho.current]
    exact h.awake
  · rw [ho.tasks] at hb
    exact h.wakeup.kept (hp j hj (by simp [ht])) hj ht hb

theorem births (h : Wakeful k) {name : List UInt8} {r : Option ℕ} {S : ℕ → Prop} (hname : name ≠ [])
    (hcur : (k.tasks k.current).state ≠ .dead) (hb : Births S k name r k') : Wakeful k' := by
  obtain ⟨o, ho⟩ := h.ring
  have hr := ho.births hname hcur hb
  cases hb with
  | full hout procs =>
      refine h.of_old hout hr fun j hj _ => ?_
      rw [procs] at hj ⊢
      exact reapedProcs_kept hj
  | @born i k₁ _ _ hc named hb =>
      have h₁ : Wakeful k₁ := by
        refine h.of_old hc.outside ⟨o, ho.conceived hc (named hname)⟩ fun j hj ht => ?_
        have hji : j ≠ i := by
          rintro rfl
          exact ht hc.task
        rw [hc.old j hji] at hj ⊢
        exact reapedProcs_kept hj
      refine h₁.born hname ?_ hb
      rw [hc.outside.tasks, hc.outside.current]
      exact hcur

/-- **`SYS_PAUSE`** of a process that no signal is pending for, or in a handler. -/
theorem pause (h : Wakeful k) {i : ℕ} (hi : processCurrent k = some i)
    (hu : (k.tasks k.current).frame.isUser = true)
    (hok : (∀ s < nsig, (k.procs i).sigPending s = false) ∨ (k.procs i).sigDelivering = true)
    (hs : schedule (k.setTaskState (k.procs i).task .blocked) = some k') : Wakeful k' := by
  obtain ⟨o, ho⟩ := h.ring
  obtain ⟨-, halive, htask⟩ := processCurrent_eq_some hi
  have hne : k.current ≠ 0 := ho.current_ne_zero fun hf => by
    rw [hf] at hu
    cases hu
  have henabled : k.schedulingEnabled = true := by
    by_contra hd
    exact hne (ho.boot (by simpa using hd))
  have h₁ : Scheduled (k.setTaskState (k.procs i).task .blocked) o := ho.setTaskState halive (by simp)
  have hwake : NoLostWakeup (k.setTaskState (k.procs i).task .blocked) := by
    intro j t hj ht hb
    rw [Kernel.setTaskState_procs] at hj ht ⊢
    rw [Kernel.setTaskState_state] at hb
    split_ifs at hb with hit
    · rwa [ho.alone j i t hj halive ht hit]
    · exact h.wakeup j t hj ht hb
  have henabled₁ : (k.setTaskState (k.procs i).task .blocked).schedulingEnabled = true := by
    rw [htask]
    exact henabled
  unfold schedule at hs
  rw [henabled₁] at hs
  obtain ⟨k₂, hswitch, hdeliver⟩ := Option.bind_eq_some_iff.1 hs
  obtain ⟨hring, hrun⟩ := h₁.switchTask henabled₁ hswitch
  have h₂ : Wakeful k₂ := ⟨hring, by rw [hrun]; simp, hwake.switchTask hswitch henabled₁⟩
  exact h₂.moves (.deliver hdeliver)

end Wakeful

/-- A step that loses no wake-up: a process pauses with no signal pending, or in a
handler.  A program that is spawned has a name, and the task that spawns it is not
dead. -/
def KernelOp.KeepsWakeup (k : Kernel) : KernelOp → Prop
  | .pause => ∀ i ∈ processCurrent k,
      (∀ s < nsig, (k.procs i).sigPending s = false) ∨ (k.procs i).sigDelivering = true
  | .spawn a => a.name ≠ [] ∧ (k.tasks k.current).state ≠ .dead
  | _ => True

instance (k : Kernel) (op : KernelOp) : Decidable (op.KeepsWakeup k) :=
  match op with
  | .pause => inferInstanceAs (Decidable (∀ i ∈ processCurrent k, _ ∨ _))
  | .spawn _ => inferInstanceAs (Decidable (_ ∧ _))
  | .enableScheduling | .schedule | .tickAlarms | .deliver | .fault .. | .killForeground | .stopForeground
  | .trampoline | .waitpid .. | .fork .. | .execve .. | .exit .. | .kill .. | .signal .. | .sigreturn
  | .alarm .. | .setpgid .. | .setForeground .. | .pipe .. | .dup2 .. | .close .. | .mmapAnon ..
  | .mprotect .. | .vgaGfx .. | .userRun .. => .isTrue trivial

/-- **One step** loses no wake-up. -/
theorem Wakeful.step {k k' : Kernel} {op : KernelOp} (h : Wakeful k) (hop : op.KeepsWakeup k)
    (hs : kernelRun k op = some k') : Wakeful k' := by
  obtain ⟨o, ho⟩ := h.ring
  rcases kernelRun_cases hs with hm | ⟨a, r, rfl, hb⟩ | ⟨b, i, name, r, rfl, hi, hname, hb⟩ | ⟨i, rfl, hu, hi, hs⟩
  · exact h.moves hm
  · exact h.births hop.1 hop.2 hb
  · exact h.births (hname (ho.procName i (processCurrent_eq_some hi).2.1)) (ho.currentProc_not_dead hi) hb
  · exact h.pause hi hu (hop i hi) hs

/-- **No lost wake-up.**  In every run in which processes pause with no signal pending, or
in a handler, no living process is blocked while a signal is pending and none is being
handled. -/
theorem no_lost_wakeup {k : Kernel} (h : (kernelSystem.restrict fun k op => op.KeepsWakeup k).Reaches k)
    {i t : ℕ} (hi : (k.procs i).alive = true) (ht : (k.procs i).task = some t)
    (hb : (k.tasks t).state = .blocked) :
    (∀ s < nsig, (k.procs i).sigPending s = false) ∨ (k.procs i).sigDelivering = true := by
  have hw : Wakeful k := by
    refine h.invariant (I := Wakeful) ?_ fun k₁ op k₂ h₁ ⟨hop, hs⟩ => h₁.step hop hs
    rintro _ ⟨-, -, -, vm, -, rfl⟩
    exact ⟨⟨[0], .init vm⟩, by simp [kernelInit], fun i t hi => by cases hi⟩
  exact hw.wakeup i t hi ht hb

/-- The hypotheses of `no_lost_wakeup` are satisfiable: the first process pauses. -/
theorem no_lost_wakeup_pause : ∃ k, (kernelSystem.restrict fun k op => op.KeepsWakeup k).Reaches k ∧
    (k.procs 0).alive = true ∧ (k.tasks 1).state = .blocked ∧
    ((∀ s < nsig, (k.procs 0).sigPending s = false) ∨ (k.procs 0).sigDelivering = true) := by
  have hrun : (smallKernel.bind fun k => System.exec
      (fun k op => if op.KeepsWakeup k then kernelRun k op else none) k (startOps ++ [.pause])).any
        (fun k => decide ((k.procs 0).alive = true ∧ (k.procs 0).task = some 1 ∧
          (k.tasks 1).state = .blocked)) = true := by decide +kernel
  obtain ⟨k, hreach, hi, ht, hb⟩ := System.exists_restrict_reaches init_smallKernel hrun
  exact ⟨k, hreach, hi, hb, no_lost_wakeup hreach hi ht hb⟩

/-- **A pause after a handler sleeps over a signal.**  A second signal comes while the
handler of the first one runs and stays pending when the handler returns; the process
then pauses and is blocked. -/
theorem pause_loses_wakeup : ∃ k, kernelSystem.Reaches k ∧ (k.procs 0).alive = true ∧
    (k.procs 0).task = some 1 ∧ (k.tasks 1).state = .blocked ∧ (k.procs 0).sigPending 12 = true ∧
    (k.procs 0).sigDelivering = false := by
  refine System.exists_reaches (l := startOps ++ [.signal 10 0x400000, .signal 12 0x400000, .kill 1 10, .deliver,
    .kill 1 12, .deliver, .sigreturn, .pause]) init_smallKernel ?_
  decide +kernel

end LighthOS
