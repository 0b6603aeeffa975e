/-
# Dead tasks do not run

`process_exit` and `user_fault_terminate` mark their task dead and hand the machine to
`schedule`, which goes on with a task that is not dead.  The other ways to end a process
do not: `process_kill` with `SIG_KILL` marks the task of its victim dead, and the default
action of a signal marks the task dead whose frame is about to be resumed.  Where this is
the current task, the frame of a dead task is returned to
(`signal_resumes_dead`).

In every run in which no process kills itself and no signal ends a process by its default
action the current task is not dead (`current_not_dead`).
-/

import LighthOS.Kernel.Moves

namespace LighthOS

/-! ### One move -/

section Moves

variable {k k' : Kernel} {E : Scope}

theorem setTaskState_frame (k : Kernel) (o : Option ℕ) (st : TaskState) (t : ℕ) :
    ((k.setTaskState o st).tasks t).frame = (k.tasks t).frame := by
  cases o with
  | none => rfl
  | some u =>
      rw [Kernel.setTaskState, Kernel.setTask_tasks]
      split_ifs with h
      · rw [h]
      · rfl

/-- The idle task stays in the kernel. -/
theorem Move.idle_frame (hm : Move E k k') (h : (k.tasks 0).frame = .kernel) :
    (k'.tasks 0).frame = .kernel := by
  have hset : ∀ fr, (k.tasks k.current).frame ≠ .kernel →
      ((k.setTask k.current fun t => { t with frame := fr }).tasks 0).frame = .kernel := by
    intro fr hne
    rw [Kernel.setTask_tasks, if_neg]
    · exact h
    · intro h₀
      rw [← h₀] at hne
      exact hne h
  cases hm with
  | other tasks => rw [tasks, h]
  | procs => exact h
  | reap => exact h
  | handle => exact h
  | disposition => exact h
  | @pend i signo alive =>
      obtain ⟨o, -, he⟩ := pendSignal_eq k i signo
      rw [he, setTaskState_frame]
      exact h
  | state => rw [setTaskState_frame, h]
  | frame regs user =>
      refine hset _ fun hk => ?_
      rw [hk] at user
      cases user
  | trampoline hs =>
      have hne : (k.tasks k.current).frame ≠ .kernel := by
        intro hk
        unfold spawnTrampoline at hs
        rw [hk] at hs
        cases hs
      obtain ⟨fr, g, rfl⟩ := spawnTrampoline_eq hs
      exact hset fr hne
  | ends => rw [setTaskState_frame, Kernel.setProc_tasks, h]
  | switch _ hs =>
      obtain ⟨st, he, -⟩ := switchTask_tasks hs 0
      rw [he, h]

/-- Scheduling stays enabled. -/
theorem Move.enabled (hm : Move E k k') (h : k.schedulingEnabled = true) :
    k'.schedulingEnabled = true := by
  cases hm with
  | other _ _ _ _ enabled => exact enabled h
  | procs => exact h
  | reap => exact h
  | handle => exact h
  | disposition => exact h
  | @pend i signo alive =>
      obtain ⟨o, -, he⟩ := pendSignal_eq k i signo
      rw [he, Kernel.setTaskState_schedulingEnabled]
      exact h
  | state => rw [Kernel.setTaskState_schedulingEnabled, h]
  | frame => exact h
  | trampoline hs =>
      obtain ⟨fr, g, rfl⟩ := spawnTrampoline_eq hs
      exact h
  | ends => exact (Kernel.setTaskState_schedulingEnabled _ _ _).trans h
  | switch _ hs => rw [(switchTask_outside hs).1.schedulingEnabled, h]

end Moves

/-! ### The current task -/

/-- The idle task is in the kernel, and it is the current task until scheduling is
enabled. -/
structure IdleFirst (k : Kernel) : Prop where
  frame : (k.tasks 0).frame = .kernel
  boot : k.schedulingEnabled = false → k.current = 0

namespace IdleFirst

variable {k k' : Kernel} {E : Scope}

theorem move (h : IdleFirst k) (hm : Move E k k') : IdleFirst k' := by
  refine ⟨hm.idle_frame h.frame, fun hd => ?_⟩
  have hk : k.schedulingEnabled = false := by
    refine Bool.eq_false_iff.2 fun he => ?_
    rw [hm.enabled he] at hd
    cases hd
  rcases hm.current_cases with he | ⟨he, -⟩
  · exact he.trans (h.boot hk)
  · rw [hk] at he
    cases he

theorem moves (h : IdleFirst k) (hm : Moves E k k') : IdleFirst k' :=
  hm.invariant (I := IdleFirst) h fun _ _ h₁ hm₁ => h₁.move hm₁

/-- A task in user mode runs only where scheduling is enabled. -/
theorem enabled (h : IdleFirst k) (hu : (k.tasks k.current).frame.isUser = true) :
    k.schedulingEnabled = true := by
  refine Bool.eq_true_of_not_eq_false fun hd => ?_
  rw [h.boot hd, h.frame] at hu
  cases hu

/-- `task_alloc` and what follows it leave the idle task alone. -/
theorem born (h : IdleFirst k) {name : List UInt8} {i : ℕ} {r : Option ℕ} {S : ℕ → Prop}
    (hb : Born S k name i r k') : IdleFirst k' := by
  have halloc : ∀ {stackBase r k₁}, taskAlloc k name stackBase = some (r, k₁) → IdleFirst k₁ := by
    intro stackBase r k₁ ha
    obtain ⟨ho, hc⟩ := taskAlloc_outside ha
    refine ⟨?_, fun hd => ?_⟩
    · rcases taskAlloc_tasks ha 0 with ⟨next, he⟩ | ⟨h₀, -⟩
      · rw [he]
        exact h.frame
      · exact absurd rfl h₀
    · rw [hc]
      exact h.boot (ho.schedulingEnabled ▸ hd)
  have hlaunch : ∀ {k₁ : Kernel} {t pml4 fr f}, IdleFirst k₁ → t ≠ 0 →
      IdleFirst (launch k₁ i t pml4 fr f) := by
    intro k₁ t pml4 fr f h₁ ht
    refine ⟨?_, h₁.boot⟩
    obtain ⟨next, he⟩ := launch_tasks k₁ i t pml4 fr f 0
    rw [he, if_neg ht.symm]
    exact h₁.frame
  cases hb with
  | gaveUp => exact ⟨h.frame, h.boot⟩
  | failed ha => exact ⟨(halloc ha).frame, (halloc ha).boot⟩
  | @spawned _ _ _ _ _ k₁ ha _ =>
      have h₁ : IdleFirst { k₁ with gSpawning := some i } := ⟨(halloc ha).frame, (halloc ha).boot⟩
      exact hlaunch h₁ (taskAlloc_ne_zero ha)
  | forked ha => exact hlaunch (halloc ha) (taskAlloc_ne_zero ha)

theorem outsideProcs (h : IdleFirst k) (ho : OutsideProcs k k') : IdleFirst k' := by
  refine ⟨?_, fun hd => ?_⟩
  · rw [ho.tasks]
    exact h.frame
  · rw [ho.current]
    exact h.boot (ho.enabled ▸ hd)

theorem births (h : IdleFirst k) {name : List UInt8} {r : Option ℕ} {S : ℕ → Prop} (hb : Births S k name r k') :
    IdleFirst k' := by
  cases hb with
  | full ho => exact h.outsideProcs ho
  | born hc _ hb => exact (h.outsideProcs hc.outside).born hb

end IdleFirst

/-- The current task is not dead. -/
def Awake (k : Kernel) : Prop := (k.tasks k.current).state ≠ .dead

section Awake

variable {k k' : Kernel} {E : Scope}

/-- A move that ends no process. -/
theorem Awake.move (h : Awake k) (hE : ∀ i, ¬E.ends i) (hm : Move E k k') : Awake k' := by
  rcases hm.current_cases with he | ⟨-, hs⟩
  · rcases hm.state_cases k.current with hst | ⟨-, hst⟩ | ⟨-, i, hi, -⟩
    · unfold Awake
      rw [he, hst]
      exact h
    · unfold Awake
      rw [he]
      exact hst
    · exact absurd hi (hE i)
  · exact switchTask_not_dead hs

theorem Awake.moves (h : Awake k) (hm : Moves E k k') (hE : ∀ i, ¬E.ends i) : Awake k' :=
  hm.invariant (I := Awake) h fun _ _ h₁ hm₁ => h₁.move hE hm₁

/-- `task_alloc` ends no task. -/
theorem Awake.births (h : Awake k) {name : List UInt8} {r : Option ℕ} {S : ℕ → Prop} (hb : Births S k name r k') :
    Awake k' := by
  have halloc : ∀ {k₁ : Kernel} {stackBase r k₂}, Awake k₁ → taskAlloc k₁ name stackBase = some (r, k₂) →
      Awake k₂ := by
    intro k₁ stackBase r k₂ h₁ ha
    unfold Awake
    rw [(taskAlloc_outside ha).2]
    rcases taskAlloc_tasks ha k₁.current with ⟨next, he⟩ | ⟨-, he, -⟩
    · rw [he]
      exact h₁
    · rw [he]
      simp
  have houtside : ∀ {k₁ : Kernel}, OutsideProcs k k₁ → Awake k₁ := by
    intro k₁ ho
    unfold Awake
    rw [ho.tasks, ho.current]
    exact h
  have hlaunch : ∀ {k₁ : Kernel} {i t pml4 fr f}, Awake k₁ → Awake (launch k₁ i t pml4 fr f) := by
    intro k₁ i t pml4 fr f h₁ hd
    rw [launch_state] at hd
    exact h₁ hd
  cases hb with
  | full ho => exact houtside ho
  | born hc _ hb =>
      have h₁ := houtside hc.outside
      cases hb with
      | gaveUp => exact h₁
      | failed ha =>
          have h₂ := halloc h₁ ha
          exact h₂
      | spawned ha _ =>
          have h₂ := halloc h₁ ha
          exact hlaunch h₂
      | forked ha => exact hlaunch (halloc h₁ ha)

/-- **`schedule`** where it is enabled and no living process is doomed: whatever the task
was that it is called in, the one it returns to is not dead. -/
theorem schedule_awake (he : k.schedulingEnabled = true)
    (hd : ∀ i < processMax, (k.procs i).alive = true → ¬Doomed (k.procs i))
    (hs : schedule k = some k') : Awake k' := by
  unfold schedule at hs
  rw [he] at hs
  obtain ⟨k₁, hswitch, hdeliver⟩ := Option.bind_eq_some_iff.1 hs
  have h₁ : Awake k₁ := switchTask_not_dead hswitch
  refine h₁.moves (.deliver hdeliver) fun i hi => ?_
  obtain ⟨hlt, halive, -⟩ := processCurrent_eq_some hi.1
  rw [(switchTask_outside hswitch).1.procs] at halive
  rw [(switchTask_outside hswitch).1.procs] at hi
  exact hd i hlt halive hi.2

end Awake

/-! ### Signals to others -/

section Kill

variable {k : Kernel} {t : ℕ}

/-- A move changes no process's task. -/
theorem Move.procTask {E : Scope} {k' : Kernel} (hm : Move E k k') (i : ℕ) :
    (k'.procs i).task = (k.procs i).task := by
  have hset : ∀ (j : ℕ) (f : Process → Process), (∀ p, (f p).task = p.task) →
      ((k.setProc j f).procs i).task = (k.procs i).task := fun j f hf => by
    rw [Kernel.setProc_procs]
    split_ifs with hi
    · rw [hf, hi]
    · rfl
  cases hm with
  | other _ procs => rw [procs]
  | procs procs kept => exact (kept i).task
  | reap procs reaps =>
      dsimp only
      rcases reaps i with he | ⟨-, he⟩ <;> rw [he]
  | handle f _ handles =>
      refine hset _ f fun p => ?_
      obtain ⟨regs, b, he, -⟩ := handles p
      rw [he]
  | disposition => exact hset _ _ fun _ => rfl
  | @pend j signo =>
      obtain ⟨o, -, he⟩ := pendSignal_eq k j signo
      rw [he, Kernel.setTaskState_procs]
      exact hset _ _ fun _ => rfl
  | state => rw [Kernel.setTaskState_procs]
  | frame => rfl
  | trampoline hs =>
      obtain ⟨fr, g, rfl⟩ := spawnTrampoline_eq hs
      rfl
  | ends f _ _ dead =>
      rw [Kernel.setTaskState_procs]
      refine hset _ f fun p => ?_
      obtain ⟨code, he⟩ := dead p
      rw [he]
  | switch _ hs => rw [(switchTask_outside hs).1.procs]

/-- **Moves** end the tasks only of the processes that they end. -/
theorem Moves.dead {E : Scope} {k' : Kernel} (hm : Moves E k k') (h : (k'.tasks t).state = .dead) :
    (k.tasks t).state = .dead ∨ ∃ i, E.ends i ∧ (k.procs i).task = some t := by
  have hinv := hm.invariant (I := fun k' => (∀ i, (k'.procs i).task = (k.procs i).task) ∧
    ((k'.tasks t).state = .dead → (k.tasks t).state = .dead ∨ ∃ i, E.ends i ∧ (k.procs i).task = some t))
    ⟨fun _ => rfl, Or.inl⟩ fun k₁ k₂ h₁ hm₁ => ⟨fun i => (hm₁.procTask i).trans (h₁.1 i), fun hd => ?_⟩
  · exact hinv.2 h
  · rcases hm₁.state_cases t with he | ⟨-, hne⟩ | ⟨-, i, hi, htask⟩
    · exact h₁.2 (he ▸ hd)
    · exact absurd hd hne
    · exact Or.inr ⟨i, hi, h₁.1 i ▸ htask⟩

end Kill

/-! ### Runs -/

/-- A step that spares the current task: `SIG_KILL` is not for the current process, and
where signals are delivered none of them ends a process by its default action. -/
def KernelOp.SparesCurrent (k : Kernel) : KernelOp → Prop
  | .kill pid signo => ∀ i < processMax, Killed k pid signo i → (k.procs i).task ≠ some k.current
  | .deliver => ∀ i ∈ processCurrent k, ¬Doomed (k.procs i)
  | .schedule | .pause => ∀ i < processMax, (k.procs i).alive = true → ¬Doomed (k.procs i)
  | .exit _ | .fault _ => ∀ i < processMax, (k.procs i).alive = true → processCurrent k ≠ some i →
      ¬Doomed (k.procs i)
  | _ => True

instance (k : Kernel) (pid signo : ℤ) (i : ℕ) : Decidable (Killed k pid signo i) := by
  unfold Killed InGroup
  infer_instance

instance (k : Kernel) (op : KernelOp) : Decidable (op.SparesCurrent k) :=
  match op with
  | .kill pid signo => inferInstanceAs (Decidable (∀ i < processMax, Killed k pid signo i → _))
  | .deliver => inferInstanceAs (Decidable (∀ i ∈ processCurrent k, ¬Doomed (k.procs i)))
  | .schedule | .pause => inferInstanceAs (Decidable (∀ i < processMax, (k.procs i).alive = true → ¬Doomed _))
  | .exit _ | .fault _ =>
      inferInstanceAs (Decidable (∀ i < processMax, (k.procs i).alive = true → _ → ¬Doomed (k.procs i)))
  | .enableScheduling | .tickAlarms | .killForeground | .stopForeground | .trampoline | .spawn ..
  | .waitpid .. | .fork .. | .execve .. | .signal .. | .sigreturn | .alarm .. | .setpgid ..
  | .setForeground .. | .pipe .. | .dup2 .. | .close .. | .mmapAnon .. | .mprotect .. | .vgaGfx ..
  | .userRun .. => .isTrue trivial

section Runs

variable {k k' : Kernel}

/-- The steps at which a task may die. -/
theorem Awake.step_ends (h : Awake k) (hi : IdleFirst k) {op : KernelOp} (hop : op.SparesCurrent k)
    (hs : kernelRun k op = some k') (hm : Moves (op.scope k) k k') : Awake k' := by
  obtain ⟨hposs, hs⟩ := kernelRun_eq_some.1 hs
  cases op with
  | kill pid signo =>
      cases hs
      have hcur : (processKill k pid signo).2.current = k.current :=
        processKill_rec (motive := fun k₁ => k₁.current = k.current) rfl fun _ _ h₁ _ _ =>
          (sendSignal_current _ _ _).trans h₁
      unfold Awake
      rw [hcur]
      intro hd
      rcases (Moves.processKill k pid signo).dead hd with hd | ⟨i, hkilled, htask⟩
      · exact h hd
      · exact hop i hkilled.lt hkilled htask
  | deliver => exact h.moves hm fun i hd => hop i hd.1 hd.2
  | schedule =>
      cases he : k.schedulingEnabled with
      | true => exact schedule_awake he hop hs
      | false =>
          have hs : schedule k = some k' := hs
          unfold schedule at hs
          rw [he] at hs
          cases hs
          exact h
  | fault signo =>
      have he := hi.enabled hposs
      have hs : userFaultTerminate k signo = some k' := hs
      unfold userFaultTerminate at hs
      split at hs
      · next hc => exact schedule_awake he (fun i hlt halive => hop i hlt halive (by simp [hc])) hs
      · next c hc =>
          refine schedule_awake ?_ (fun i hlt halive => ?_) hs
          · exact (Move.ends _ trivial (processCurrent_eq_some hc).2.1 fun p => ⟨_, rfl⟩ :
              Move ⟨fun _ => True, fun _ => True⟩ k _).enabled he
          · rw [Kernel.setTaskState_procs, Kernel.setProc_procs] at halive ⊢
            split_ifs at halive ⊢ with hic
            exact hop i hlt halive fun hci => hic (Option.some.inj (hc.symm.trans hci)).symm
  | exit code =>
      have he := hi.enabled hposs
      have hs : schedule (exitCurrent k code) = some k' := hs
      refine schedule_awake ?_ (fun i hlt halive hdoomed => ?_) hs
      · exact (Moves.exitCurrent k code).invariant (I := fun k => k.schedulingEnabled = true) he
          fun _ _ h₁ hm₁ => hm₁.enabled h₁
      · obtain ⟨h₁, h₂, h₃⟩ := exitCurrent_doomed ⟨halive, hdoomed⟩
        exact hop i hlt h₁ h₃ h₂
  | _ => exact h.moves hm fun i hd => hd

/-- **One step** returns to a task that is not dead. -/
theorem Awake.step (h : Awake k) (hi : IdleFirst k) {op : KernelOp} (hop : op.SparesCurrent k)
    (hs : kernelRun k op = some k') : Awake k' ∧ IdleFirst k' := by
  rcases kernelRun_cases hs with hm | ⟨a, r, rfl, hb⟩ | ⟨b, i, name, r, rfl, -, -, hb⟩ | ⟨i, rfl, hu, -, hs⟩
  · exact ⟨h.step_ends hi hop hs hm, hi.moves hm⟩
  · exact ⟨h.births hb, hi.births hb⟩
  · exact ⟨h.births hb, hi.births hb⟩
  · have hi₁ : IdleFirst (k.setTaskState (k.procs i).task .blocked) := by
      refine ⟨?_, fun hd => ?_⟩
      · rw [setTaskState_frame, hi.frame]
      · rw [Kernel.setTaskState_current]
        exact hi.boot ((Kernel.setTaskState_schedulingEnabled _ _ _).symm.trans hd)
    refine ⟨schedule_awake ?_ (fun j hlt halive => ?_) hs, hi₁.moves (.schedule hs)⟩
    · rw [Kernel.setTaskState_schedulingEnabled, hi.enabled hu]
    · rw [Kernel.setTaskState_procs] at halive ⊢
      exact hop j hlt halive

/-- **The task that is returned to is not dead**, in every run in which no process kills
itself and no signal ends a process by its default action. -/
theorem current_not_dead (h : (kernelSystem.restrict fun k op => op.SparesCurrent k).Reaches k) :
    (k.tasks k.current).state ≠ .dead := by
  have hinv : Awake k ∧ IdleFirst k := by
    refine h.invariant (I := fun k => Awake k ∧ IdleFirst k) ?_
      fun k₁ op k₂ h₁ ⟨hop, hs⟩ => h₁.1.step h₁.2 hop hs
    rintro _ ⟨-, -, -, vm, -, rfl⟩
    exact ⟨by simp [Awake, kernelInit], rfl, fun _ => rfl⟩
  exact hinv.1

end Runs

/-- The hypotheses of `current_not_dead` are satisfiable: the first process forks and
exits, and its child goes on. -/
theorem current_not_dead_exit : ∃ k, (kernelSystem.restrict fun k op => op.SparesCurrent k).Reaches k ∧
    (k.tasks 1).state = .dead ∧ (k.tasks k.current).state ≠ .dead := by
  have hrun : (smallKernel.bind fun k => System.exec
      (fun k op => if op.SparesCurrent k then kernelRun k op else none) k
      (startOps ++ [.fork 0x2000, .exit 0])).any (fun k => decide ((k.tasks 1).state = .dead)) = true := by
    decide +kernel
  obtain ⟨k, hreach, hdead⟩ := System.exists_restrict_reaches init_smallKernel hrun
  exact ⟨k, hreach, hdead, current_not_dead hreach⟩

/-- A running process sends itself `signo`, and after `SYS_KILL`, with the delivery of signals
at its end, the current task is dead, and its frame in user mode is returned to. -/
def ResumedDead (signo : ℕ) : Prop :=
  ∃ k k₁ k₂, kernelSystem.Reaches k ∧ (k.tasks k.current).state = .running ∧
    kernelRun k (.kill 1 signo) = some k₁ ∧ kernelRun k₁ .deliver = some k₂ ∧
    (k₂.tasks k₂.current).state = .dead ∧ (k₂.tasks k₂.current).frame.isUser = true

/-- **A process that kills itself runs on**, and so does one that the default action of a
signal ends. -/
theorem signal_resumes_dead : ResumedDead sigKill ∧ ResumedDead sigTerm := by
  have hrun : ∀ signo ∈ [sigKill, sigTerm], (smallKernel.bind fun k => System.exec kernelRun k startOps).any
      (fun k => decide ((k.tasks k.current).state = .running ∧ ((kernelRun k (.kill 1 signo)).any
        fun k₁ => (kernelRun k₁ .deliver).any fun k₂ => decide ((k₂.tasks k₂.current).state = .dead ∧
          (k₂.tasks k₂.current).frame.isUser = true)) = true)) = true := by decide +kernel
  have hresumed : ∀ signo ∈ [sigKill, sigTerm], ResumedDead signo := by
    intro signo hsigno
    obtain ⟨k, hreach, hrunning, hprop⟩ := System.exists_reaches init_smallKernel (hrun signo hsigno)
    obtain ⟨k₁, hk₁, hprop₁⟩ := (Option.any_eq_true _ _).1 hprop
    obtain ⟨k₂, hk₂, hprop₂⟩ := (Option.any_eq_true _ _).1 hprop₁
    exact ⟨k, k₁, k₂, hreach, hrunning, hk₁, hk₂, of_decide_eq_true hprop₂⟩
  exact ⟨hresumed sigKill (by simp), hresumed sigTerm (by simp)⟩

end LighthOS
