/-
# The ring of tasks in the runs of the kernel

`Scheduled k o` ties the ring to the table of processes: the task of a living process
is in the ring, is not the idle task, is not dead and is no other process's task.  So
a signal, which changes the state of the task of a living process, leaves the ring
intact, and `task_alloc` takes the slot of no living process.

Every step keeps this where programs that are spawned have a name and a task that is
dead spawns none (`kernel_ring_intact`).
-/

import LighthOS.Kernel.Moves
import LighthOS.Kernel.Scheduler

namespace LighthOS

/-- The ring and the processes fit together. -/
structure Scheduled (k : Kernel) (o : List ℕ) : Prop where
  ring : RingOk k o
  frame : (k.tasks 0).frame = .kernel
  boot : k.schedulingEnabled = false → k.current = 0
  procName : ∀ i, (k.procs i).alive = true → (k.procs i).name ≠ []
  procTask : ∀ i t, (k.procs i).alive = true → (k.procs i).task = some t →
    t ∈ o ∧ t ≠ 0 ∧ (k.tasks t).state ≠ .dead
  alone : ∀ i j t, (k.procs i).alive = true → (k.procs j).alive = true →
    (k.procs i).task = some t → (k.procs j).task = some t → i = j

namespace Scheduled

variable {k k' : Kernel} {o : List ℕ}

theorem init (vm : Vm) : Scheduled (kernelInit vm) [0] :=
  ⟨.init vm, rfl, fun _ => rfl, fun _ h => (by cases h), fun _ _ h => (by cases h), fun _ _ _ h => (by cases h)⟩

section

variable (h : Scheduled k o)
include h

/-- A task in user mode, or in `spawn_trampoline`, is not the idle task. -/
theorem current_ne_zero (hf : (k.tasks k.current).frame ≠ .kernel) : k.current ≠ 0 := by
  intro h₀
  rw [h₀] at hf
  exact hf h.frame

theorem of_eq (ht : k'.tasks = k.tasks) (hp : k'.procs = k.procs)
    (hc : k'.current = k.current) (he : k.schedulingEnabled = true → k'.schedulingEnabled = true) :
    Scheduled k' o := by
  refine ⟨h.ring.congr hc fun i => by rw [ht]; exact ⟨rfl, rfl, rfl⟩, ?_, fun hd => ?_, ?_, ?_, ?_⟩
  · rw [ht]
    exact h.frame
  · rw [hc]
    refine h.boot ?_
    cases hk : k.schedulingEnabled with
    | false => rfl
    | true => exact absurd (he hk) (by rw [hd]; simp)
  · rw [hp]
    exact h.procName
  · rw [hp, ht]
    exact h.procTask
  · rw [hp]
    exact h.alone

/-- The processes change; those that live and have a task lived and had it before. -/
theorem setProcs (procs : ℕ → Process) (hp : ∀ i, (procs i).alive = true → (procs i).name ≠ [] ∧
      ∀ t, (procs i).task = some t → (k.procs i).alive = true ∧ (k.procs i).task = some t) :
    Scheduled { k with procs := procs } o where
  ring := h.ring.congr rfl fun _ => ⟨rfl, rfl, rfl⟩
  frame := h.frame
  boot := h.boot
  procName i hi := (hp i hi).1
  procTask i t hi ht := h.procTask i t ((hp i hi).2 t ht).1 ((hp i hi).2 t ht).2
  alone i j t hi hj hti htj := h.alone i j t ((hp i hi).2 t hti).1 ((hp j hj).2 t htj).1
    ((hp i hi).2 t hti).2 ((hp j hj).2 t htj).2

/-- One process changes; its task stays. -/
theorem setProc {i : ℕ} {f : Process → Process} (hf : (f (k.procs i)).alive = true → (k.procs i).alive = true ∧
      (f (k.procs i)).task = (k.procs i).task ∧ (f (k.procs i)).name = (k.procs i).name) :
    Scheduled (k.setProc i f) o := by
  refine h.setProcs _ fun j hj => ?_
  by_cases hji : j = i
  · subst hji
    simp only [Function.update_self] at hj ⊢
    obtain ⟨h₁, h₂, h₃⟩ := hf hj
    exact ⟨h₃ ▸ h.procName j h₁, fun t ht => ⟨h₁, h₂ ▸ ht⟩⟩
  · simp only [Function.update_of_ne hji] at hj ⊢
    exact ⟨h.procName j hj, fun t ht => ⟨hj, ht⟩⟩

/-- The task of the ring other than the idle task changes its state; it dies where no
living process has it. -/
theorem setState {t : ℕ} (ht : t ∈ o) (h₀ : t ≠ 0) {st : TaskState}
    (hd : st = .dead → ∀ i, (k.procs i).alive = true → (k.procs i).task ≠ some t) :
    Scheduled (k.setTask t fun x => { x with state := st }) o where
  ring := h.ring.setState ht h₀ st
  frame := by
    rw [Kernel.setTask_tasks, if_neg h₀.symm]
    exact h.frame
  boot := h.boot
  procName := h.procName
  procTask i u hi hu := by
    obtain ⟨hmem, hu₀, hs⟩ := h.procTask i u hi hu
    refine ⟨hmem, hu₀, ?_⟩
    rw [Kernel.setTask_tasks]
    split_ifs with hut
    · intro hst
      exact hd hst i hi (hut ▸ hu)
    · exact hs
  alone := h.alone

/-- The task of a living process changes its state and does not die. -/
theorem setTaskState {i : ℕ} (hi : (k.procs i).alive = true) {st : TaskState}
    (hst : st ≠ .dead) : Scheduled (k.setTaskState (k.procs i).task st) o := by
  cases ht : (k.procs i).task with
  | none => exact h
  | some t =>
      obtain ⟨hmem, h₀, -⟩ := h.procTask i t hi ht
      exact h.setState hmem h₀ fun hd => absurd hd hst

/-- **A process ends**, and its task with it. -/
theorem endProc {i : ℕ} (hi : (k.procs i).alive = true) {f : Process → Process} (hf : (f (k.procs i)).alive = false) :
    Scheduled ((k.setProc i f).setTaskState (k.procs i).task .dead) o := by
  have h₁ : Scheduled (k.setProc i f) o := h.setProc fun ha => by rw [hf] at ha; cases ha
  cases ht : (k.procs i).task with
  | none => exact h₁
  | some t =>
      obtain ⟨hmem, h₀, -⟩ := h.procTask i t hi ht
      refine h₁.setState hmem h₀ fun _ j hj htj => ?_
      rw [Kernel.setProc_procs] at hj htj
      split_ifs at hj htj with hji
      · rw [hf] at hj
        cases hj
      · exact hji (h.alone j i t hj hi htj ht)

/-- A task other than the idle task moves between user mode and the kernel. -/
theorem setFrame {t : ℕ} (h₀ : t ≠ 0) (fr : Frame) : Scheduled (k.setTask t fun x => { x with frame := fr }) o := by
  have htasks : ∀ i, ∃ fr', (k.setTask t fun x => { x with frame := fr }).tasks i
      = { k.tasks i with frame := fr' } := fun i => by
    rw [Kernel.setTask_tasks]
    split_ifs with hi
    · exact ⟨fr, by rw [hi]⟩
    · exact ⟨_, rfl⟩
  refine ⟨h.ring.congr rfl fun i => ?_, ?_, h.boot, h.procName, fun i u hi hu => ?_, h.alone⟩
  · obtain ⟨fr', he⟩ := htasks i
    rw [he]
    exact ⟨rfl, rfl, rfl⟩
  · rw [Kernel.setTask_tasks, if_neg h₀.symm]
    exact h.frame
  · obtain ⟨fr', he⟩ := htasks u
    rw [he]
    exact h.procTask i u hi hu

/-- **`schedule`** switches to a task of the ring, which is then running. -/
theorem switchTask (he : k.schedulingEnabled = true) (hs : switchTask k = some k') :
    (∃ o', Scheduled k' o') ∧ (k'.tasks k'.current).state = .running := by
  obtain ⟨a, n, b, k₁, rfl, -, -, hk₁, hcur, hrun, hring⟩ := h.ring.switchTask
  obtain rfl : k₁ = k' := Option.some.inj (hk₁.symm.trans hs)
  obtain ⟨ho, -⟩ := switchTask_outside hs
  refine ⟨⟨_, hring, ?_, fun hd => ?_, ?_, fun i t hi ht => ?_, ?_⟩, hcur ▸ hrun⟩
  · obtain ⟨st, hst, -⟩ := switchTask_tasks hs 0
    rw [hst]
    exact h.frame
  · rw [ho.schedulingEnabled, he] at hd
    cases hd
  · rw [ho.procs]
    exact h.procName
  · rw [ho.procs] at hi ht
    obtain ⟨hmem, h₀, hd⟩ := h.procTask i t hi ht
    refine ⟨?_, h₀, ?_⟩
    · simp only [List.mem_append, List.mem_cons, List.not_mem_nil, or_false] at hmem ⊢
      tauto
    · obtain ⟨st, hst, hor⟩ := switchTask_tasks hs t
      rw [hst]
      rcases hor with rfl | rfl | rfl
      · exact hd
      · simp
      · simp
  · rw [ho.procs]
    exact h.alone

theorem spawnTrampoline (hs : spawnTrampoline k = some k') : Scheduled k' o := by
  have hcur : k.current ≠ 0 := h.current_ne_zero fun hf => by
    unfold LighthOS.spawnTrampoline at hs
    rw [hf] at hs
    cases hs
  obtain ⟨fr, g, rfl⟩ := spawnTrampoline_eq hs
  exact (h.setFrame hcur fr).of_eq rfl rfl rfl id

/-- What the ring needs of an old process. -/
theorem kept {i : ℕ} {p : Process} (hk : (k.procs i).Kept p) (hi : p.alive = true) :
    p.name ≠ [] ∧ ∀ t, p.task = some t → (k.procs i).alive = true ∧ (k.procs i).task = some t := by
  rw [hk.alive] at hi
  refine ⟨?_, fun t ht => ⟨hi, hk.task ▸ ht⟩⟩
  rcases hk.name with he | hne
  · rw [he]
    exact h.procName i hi
  · exact hne

/-- A new process has no task. -/
theorem conceived {i : ℕ} (hc : Conceived k i k') (hname : (k'.procs i).name ≠ []) : Scheduled k' o := by
  refine (h.setProcs k'.procs fun j hj => ?_).of_eq hc.outside.tasks rfl hc.outside.current
    hc.outside.enabled.trans
  by_cases hji : j = i
  · subst hji
    refine ⟨hname, fun t ht => ?_⟩
    rw [hc.task] at ht
    cases ht
  · rw [hc.old j hji] at hj ⊢
    exact h.kept (reapedProcs_kept hj) hj

/-- **Every move** keeps the ring. -/
theorem move {E : Scope} (hm : Move E k k') : ∃ o', Scheduled k' o' := by
  cases hm with
  | other tasks procs current _ enabled => exact ⟨o, h.of_eq tasks procs current enabled⟩
  | procs procs kept => exact ⟨o, h.setProcs procs fun i => h.kept (kept i)⟩
  | reap procs reaps =>
      refine ⟨o, h.setProcs procs fun i hi => ?_⟩
      rcases reaps i with he | ⟨hdead, he⟩
      · rw [he] at hi ⊢
        exact ⟨h.procName i hi, fun t ht => ⟨hi, ht⟩⟩
      · rw [he] at hi
        exact absurd (hdead.symm.trans hi) (by simp)
  | handle f cur handles =>
      refine ⟨o, h.setProc fun ha => ?_⟩
      obtain ⟨regs, b, he, -⟩ := handles (k.procs _)
      rw [he] at ha ⊢
      exact ⟨ha, rfl, rfl⟩
  | disposition => exact ⟨o, h.setProc fun ha => ⟨ha, rfl, rfl⟩⟩
  | @pend i signo alive =>
      have h₁ : Scheduled (k.setProc i fun p =>
          { p with sigPending := Function.update p.sigPending signo true }) o :=
        h.setProc fun ha => ⟨ha, rfl, rfl⟩
      obtain ⟨u, rfl | rfl, he⟩ := pendSignal_eq k i signo
      · exact ⟨o, he ▸ h₁⟩
      · have h₂ := h₁.setTaskState (i := i) (by simpa using alive) (show TaskState.ready ≠ .dead by decide)
        exact ⟨o, he ▸ by simpa using h₂⟩
  | state alive st_eq =>
      refine ⟨o, h.setTaskState alive ?_⟩
      rcases st_eq with rfl | rfl
      · simp
      · simp
  | frame regs user =>
      refine ⟨o, h.setFrame (h.current_ne_zero fun hf => ?_) _⟩
      rw [hf] at user
      cases user
  | trampoline hs => exact ⟨o, h.spawnTrampoline hs⟩
  | @ends i f _ alive dead =>
      refine ⟨o, h.endProc alive ?_⟩
      obtain ⟨code, he⟩ := dead (k.procs i)
      rw [he]
  | switch enabled hs => exact (h.switchTask enabled hs).1

theorem moves {E : Scope} (hm : Moves E k k') : ∃ o', Scheduled k' o' :=
  hm.invariant (I := fun k => ∃ o, Scheduled k o) ⟨o, h⟩ fun _ _ ⟨_, h⟩ hm => h.move hm

/-! ### New tasks -/

/-- **`task_alloc`** takes the slot of no living process. -/
theorem taskAlloc {name : List UInt8} {stackBase : ℕ} {r : Option ℕ}
    (hname : name ≠ []) (hcur : (k.tasks k.current).state ≠ .dead)
    (ha : taskAlloc k name stackBase = some (r, k')) :
    Scheduled k' (afterAlloc k o) ∧ ∀ t, r = some t → t ∉ afterAlloc k o ∧ (t ≠ 0 ∧ t < taskMax) ∧
      (k'.tasks t).name ≠ [] ∧ (k'.tasks t).state = .ready := by
  obtain ⟨r', k₁, ha', hring, hnew, hold⟩ := h.ring.taskAlloc hname hcur stackBase
  obtain ⟨rfl, rfl⟩ := Prod.mk.inj (Option.some.inj (ha'.symm.trans ha))
  obtain ⟨ho, hc⟩ := taskAlloc_outside ha
  have hidle : (k.tasks 0).state ≠ .dead := fun hd => by
    have hrun := h.ring.idleRuns
    rw [Task.runnable, hd] at hrun
    cases hrun
  refine ⟨⟨hring, ?_, fun hd => ?_, ?_, fun i t hi ht => ?_, ?_⟩, hnew⟩
  · obtain ⟨-, next, he⟩ := hold 0 (h.ring.named 0 h.ring.idle) hidle
    rw [he]
    exact h.frame
  · rw [hc]
    exact h.boot (ho.schedulingEnabled ▸ hd)
  · rw [ho.procs]
    exact h.procName
  · rw [ho.procs] at hi ht
    obtain ⟨hmem, h₀, hd⟩ := h.procTask i t hi ht
    obtain ⟨-, next, he⟩ := hold t (h.ring.named t hmem) hd
    rw [he]
    refine ⟨?_, h₀, hd⟩
    unfold afterAlloc
    split
    · next v hv =>
        refine (List.mem_erase_of_ne ?_).2 hmem
        rintro rfl
        exact hd (deadSlot_eq_some hv).2.2
    · exact hmem
  · rw [ho.procs]
    exact h.alone

/-- **A new task** for a process without one. -/
theorem launch {i t pml4 : ℕ} {fr : Frame} {f : Process → Process} (ht : t ∉ o)
    (hslot : t ≠ 0 ∧ t < taskMax) (hname : (k.tasks t).name ≠ []) (hstate : (k.tasks t).state = .ready)
    (hf : ∀ p, (f p).task = some t ∧ (f p).name = p.name ∧ (f p).alive = p.alive) :
    Scheduled (launch k i t pml4 fr f) (t :: o) := by
  have hprocs := launch_procs k i t pml4 fr f
  have hold : ∀ u ∈ o, ∃ next, (LighthOS.launch k i t pml4 fr f).tasks u = { k.tasks u with next := next } := by
    intro u hu
    obtain ⟨next, he⟩ := launch_tasks k i t pml4 fr f u
    rw [if_neg] at he
    · exact ⟨next, he⟩
    · rintro rfl
      exact ht hu
  -- no process had the new task before
  have hfree : ∀ j, (k.procs j).alive = true → (k.procs j).task ≠ some t := fun j hj hjt =>
    ht (h.procTask j t hj hjt).1
  have hring : RingOk ((k.setTask t fun x => { x with pml4 := pml4, frame := fr }).setProc i f) o := by
    refine h.ring.congr rfl fun u => ?_
    rw [Kernel.setProc_tasks, Kernel.setTask_tasks]
    split_ifs with hu
    · rw [hu]
      exact ⟨rfl, rfl, rfl⟩
    · exact ⟨rfl, rfl, rfl⟩
  refine ⟨hring.insert ht hslot.2 ?_ ?_, ?_, h.boot, fun j hj => ?_, fun j u hj hu => ?_,
    fun j l u hj hl hju hlu => ?_⟩
  · simpa using hname
  · simp [hstate]
  · obtain ⟨next, he⟩ := hold 0 h.ring.idle
    rw [he]
    exact h.frame
  · rw [hprocs] at hj ⊢
    split_ifs at hj ⊢ with hji
    · rw [(hf _).2.1]
      exact h.procName i ((hf _).2.2 ▸ hj)
    · exact h.procName j hj
  · rw [hprocs] at hj hu
    rw [launch_state]
    split_ifs at hj hu with hji
    · rw [(hf _).1, Option.some.injEq] at hu
      subst hu
      exact ⟨List.mem_cons_self, hslot.1, by simp [hstate]⟩
    · obtain ⟨hmem, h₀, hd⟩ := h.procTask j u hj hu
      exact ⟨List.mem_cons_of_mem _ hmem, h₀, hd⟩
  · rw [hprocs] at hj hl hju hlu
    split_ifs at hj hl hju hlu with hji hli hli
    · rw [hji, hli]
    · rw [(hf _).1, Option.some.injEq] at hju
      exact absurd (hju ▸ hlu) (hfree l hl)
    · rw [(hf _).1, Option.some.injEq] at hlu
      exact absurd (hlu ▸ hju) (hfree j hj)
    · exact h.alone j l u hj hl hju hlu

/-- What `task_alloc` and `task_insert_ready` make of the process `i`. -/
theorem born {name : List UInt8} {i : ℕ} {r : Option ℕ} {S : ℕ → Prop} (hname : name ≠ [])
    (hcur : (k.tasks k.current).state ≠ .dead) (hb : Born S k name i r k') :
    ∃ o', Scheduled k' o' := by
  cases hb with
  | @gaveUp vm =>
      have h₁ : Scheduled { k with vm := vm } _ := h.of_eq rfl rfl rfl id
      exact ⟨_, h₁.setProc fun hd => by cases hd⟩
  | @failed _ k₁ vm ha =>
      have h₁ : Scheduled { k₁ with vm := vm } _ :=
        (h.taskAlloc hname hcur ha).1.of_eq rfl rfl rfl id
      exact ⟨_, h₁.setProc fun hd => by cases hd⟩
  | @spawned _ _ _ _ _ k₁ ha _ =>
      obtain ⟨h₁, hnew⟩ := h.taskAlloc hname hcur ha
      obtain ⟨ht, hslot, hn, hs⟩ := hnew _ rfl
      have h₂ : Scheduled { k₁ with gSpawning := some i } _ := h₁.of_eq rfl rfl rfl id
      exact ⟨_, h₂.launch ht hslot hn hs fun _ => ⟨rfl, rfl, rfl⟩⟩
  | forked ha =>
      obtain ⟨h₁, hnew⟩ := h.taskAlloc hname hcur ha
      obtain ⟨ht, hslot, hn, hs⟩ := hnew _ rfl
      exact ⟨_, h₁.launch ht hslot hn hs fun _ => ⟨rfl, rfl, rfl⟩⟩

theorem births {name : List UInt8} {r : Option ℕ} {S : ℕ → Prop} (hname : name ≠ [])
    (hcur : (k.tasks k.current).state ≠ .dead) (hb : Births S k name r k') :
    ∃ o', Scheduled k' o' := by
  cases hb with
  | full ho procs =>
      refine ⟨o, (h.setProcs k'.procs fun j hj => ?_).of_eq ho.tasks rfl ho.current ho.enabled.trans⟩
      rw [procs] at hj ⊢
      exact h.kept (reapedProcs_kept hj) hj
  | born hc named hb =>
      refine (h.conceived hc (named hname)).born hname ?_ hb
      rw [hc.outside.tasks, hc.outside.current]
      exact hcur

end

end Scheduled

/-! ### Runs -/

/-- A step at which the ring stays intact: a program that is spawned has a name, and the
task that spawns it is not dead. -/
def KernelOp.KeepsRing (k : Kernel) : KernelOp → Prop
  | .spawn a => a.name ≠ [] ∧ (k.tasks k.current).state ≠ .dead
  | _ => True

namespace Scheduled

variable {k k' : Kernel} {o : List ℕ}

/-- The task of the current process is not dead. -/
theorem currentProc_not_dead (h : Scheduled k o) {i : ℕ} (hi : processCurrent k = some i) :
    (k.tasks k.current).state ≠ .dead :=
  (h.procTask i _ (processCurrent_eq_some hi).2.1 (processCurrent_eq_some hi).2.2).2.2

/-- **One step** keeps the ring. -/
theorem step (h : Scheduled k o) {op : KernelOp} (hop : op.KeepsRing k)
    (hs : kernelRun k op = some k') : ∃ o', Scheduled k' o' := by
  rcases kernelRun_cases hs with hm | ⟨a, r, rfl, hb⟩ | ⟨b, i, name, r, rfl, hi, hname, hb⟩ | ⟨i, rfl, -, hi, hs⟩
  · exact h.moves hm
  · exact h.births hop.1 hop.2 hb
  · exact h.births (hname (h.procName i (processCurrent_eq_some hi).2.1)) (h.currentProc_not_dead hi) hb
  · exact (h.setTaskState (processCurrent_eq_some hi).2.1 (by simp)).moves (.schedule hs)

theorem of_reaches (h : (kernelSystem.restrict fun k op => op.KeepsRing k).Reaches k) :
    ∃ o, Scheduled k o := by
  refine h.invariant (I := fun k => ∃ o, Scheduled k o) ?_ ?_
  · rintro _ ⟨-, -, -, vm, -, rfl⟩
    exact ⟨[0], .init vm⟩
  · rintro k₁ op k₂ ⟨o, ho⟩ ⟨hop, hs⟩
    exact ho.step hop hs

end Scheduled

/-- **The ring in every run.**  Where spawned programs have a name and no dead task spawns
one, the tasks form one circle with the idle task and the current one in it, every
living process has a live task of its own in it, and `schedule` finds a task that can run. -/
theorem kernel_ring_intact {k : Kernel}
    (h : (kernelSystem.restrict fun k op => op.KeepsRing k).Reaches k) :
    ∃ o, LinkedCircle (fun i => (k.tasks i).next) k.current o ∧ 0 ∈ o ∧ (k.tasks 0).runnable = true ∧
      (∀ i t, (k.procs i).alive = true → (k.procs i).task = some t →
        (t ∈ o ∧ t ≠ 0 ∧ (k.tasks t).state ≠ .dead) ∧
          ∀ j, (k.procs j).alive = true → (k.procs j).task = some t → i = j) ∧
      ∃ k', switchTask k = some k' ∧ (k'.tasks k'.current).state = .running := by
  obtain ⟨o, ho⟩ := Scheduled.of_reaches h
  obtain ⟨a, n, b, k', -, -, -, hswitch, hcur, hrun, -⟩ := ho.ring.switchTask
  exact ⟨o, ho.ring.circle, ho.ring.idle, ho.ring.idleRuns,
    fun i t hi ht => ⟨ho.procTask i t hi ht, fun j hj => ho.alone i j t hi hj ht⟩, k', hswitch, hcur ▸ hrun⟩

/-- The hypothesis of `kernel_ring_intact` is satisfiable: a program is spawned. -/
theorem kernel_ring_intact_spawn : ∃ k, (kernelSystem.restrict fun k op => op.KeepsRing k).Reaches k ∧
    (k.procs 0).alive = true ∧ ∃ k', switchTask k = some k' ∧ (k'.tasks k'.current).state = .running := by
  have hrun : (smallKernel.bind fun k =>
      if (k.tasks k.current).state = .dead then none else kernelRun k smallSpawn).any fun k => (k.procs 0).alive := by
    decide +kernel
  obtain ⟨k, hk, halive⟩ := (Option.any_eq_true _ _).1 hrun
  obtain ⟨k₀, hk₀, hstep⟩ := Option.bind_eq_some_iff.1 hk
  split_ifs at hstep with hdead
  have hreach : (kernelSystem.restrict fun k op => op.KeepsRing k).Reaches k :=
    .step (.init (init_smallKernel k₀ hk₀)) (a := smallSpawn) ⟨⟨List.cons_ne_nil _ _, hdead⟩, hstep⟩
  obtain ⟨o, -, -, -, -, hswitch⟩ := kernel_ring_intact hreach
  exact ⟨k, hreach, halive, hswitch⟩

end LighthOS
