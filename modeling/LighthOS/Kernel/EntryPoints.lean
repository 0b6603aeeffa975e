/-
# Where user code starts

The kernel chooses the instruction pointer of a frame in user mode in three places:
`spawn_trampoline` and `process_execve_from_memory` take the entry point of an image, and
the delivery of a signal takes the handler that the process has installed.  `elf_load_at`
bounds the segments of an image but not its entry point, and `process_signal` stores any
handler, so that the kernel returns to an address that is not canonical
(`entry_not_canonical`).

`UserStarts S k` says that user code starts at addresses of `S` only.  Every step keeps it
where the addresses that the step brings in are in `S`; so where entry points and handlers
are addresses of the user half, every frame in user mode is there (`user_rip_canonical`).
-/

import LighthOS.Kernel.Moves

namespace LighthOS

/-- User code goes on, or can go on, at addresses of `S` only. -/
structure UserStarts (S : ℕ → Prop) (k : Kernel) : Prop where
  frame : ∀ t regs, (k.tasks t).frame = .user regs → S regs.rip
  entry : ∀ i, S (k.procs i).spawnEntry
  handler : ∀ i s, S ((k.procs i).sigHandlers s)
  saved : ∀ i regs, (k.procs i).sigSavedRegs = some regs → S regs.rip

namespace UserStarts

variable {S : ℕ → Prop} {k k' : Kernel}

section

variable (h : UserStarts S k)
include h

/-- Where the addresses of a process come from. -/
theorem setProcs {procs : ℕ → Process} (hp : ∀ i, S (procs i).spawnEntry ∧ (∀ s, S ((procs i).sigHandlers s)) ∧
      ∀ regs, (procs i).sigSavedRegs = some regs → S regs.rip) :
    UserStarts S { k with procs := procs } :=
  ⟨h.frame, fun i => (hp i).1, fun i => (hp i).2.1, fun i => (hp i).2.2⟩

theorem setProc {i : ℕ} {f : Process → Process}
    (hf : S (f (k.procs i)).spawnEntry ∧ (∀ s, S ((f (k.procs i)).sigHandlers s)) ∧
      ∀ regs, (f (k.procs i)).sigSavedRegs = some regs → S regs.rip) : UserStarts S (k.setProc i f) := by
  refine h.setProcs fun j => ?_
  by_cases hji : j = i
  · subst hji
    rw [Function.update_self]
    exact hf
  · rw [Function.update_of_ne hji]
    exact ⟨h.entry j, h.handler j, h.saved j⟩

/-- The tasks keep their frames, but for one. -/
theorem setTasks {tasks : ℕ → Task}
    (ht : ∀ t regs, (tasks t).frame = .user regs → S regs.rip) : UserStarts S { k with tasks := tasks } :=
  ⟨ht, h.entry, h.handler, h.saved⟩

theorem setTask {t : ℕ} {f : Task → Task}
    (hf : ∀ regs, (f (k.tasks t)).frame = .user regs → S regs.rip) : UserStarts S (k.setTask t f) := by
  refine h.setTasks fun u regs hu => ?_
  by_cases hut : u = t
  · subst hut
    rw [Function.update_self] at hu
    exact hf regs hu
  · rw [Function.update_of_ne hut] at hu
    exact h.frame u regs hu

theorem setTaskState (o : Option ℕ) (st : TaskState) : UserStarts S (k.setTaskState o st) := by
  cases o with
  | none => exact h
  | some t => exact h.setTask (f := fun x => { x with state := st }) fun regs hr => h.frame t regs hr

/-- The processes after `process_alloc` has cleared some. -/
theorem reaped (h₀ : S 0) (i : ℕ) : S (reapedProcs k.procs i).spawnEntry ∧
    (∀ s, S ((reapedProcs k.procs i).sigHandlers s)) ∧
      ∀ regs, (reapedProcs k.procs i).sigSavedRegs = some regs → S regs.rip := by
  rcases reapedProcs_eq k.procs i with he | ⟨-, he⟩
  · rw [he]
    exact ⟨h.entry i, h.handler i, h.saved i⟩
  · rw [he]
    exact ⟨h₀, fun _ => h₀, fun regs hr => by cases hr⟩

/-- **`spawn_trampoline`** goes to user mode at the entry point of a process. -/
theorem spawnTrampoline (hs : spawnTrampoline k = some k') : UserStarts S k' := by
  unfold LighthOS.spawnTrampoline at hs
  split at hs
  · cases hs
    exact h.setTask fun regs hr => by cases hr
  · next p _ =>
      cases hs
      have h₁ : UserStarts S (k.setTask k.current fun t => { t with frame := .trampoline (.cleared p) }) :=
        h.setTask fun regs hr => by cases hr
      exact ⟨h₁.frame, h₁.entry, h₁.handler, h₁.saved⟩
  · next i hframe =>
      split_ifs at hs
      cases hs
      refine h.setTask fun regs hr => ?_
      cases hr
      exact h.entry i
  · cases hs

/-- The processes stay, and the tasks have known frames. -/
theorem of_procs (hp : k'.procs = k.procs)
    (hframe : ∀ t regs, (k'.tasks t).frame = .user regs → S regs.rip) : UserStarts S k' := by
  refine ⟨hframe, ?_, ?_, ?_⟩ <;> rw [hp]
  · exact h.entry
  · exact h.handler
  · exact h.saved

/-- **Every move** starts user code at addresses that it brings in or that are known. -/
theorem move {E : Scope} (hS : ∀ a, E.starts a → S a) (hm : Move E k k') : UserStarts S k' := by
  cases hm with
  | other tasks procs => exact h.of_procs procs (tasks ▸ h.frame)
  | procs procs kept =>
      refine h.setProcs fun i => ?_
      rw [(kept i).spawnEntry, (kept i).handlers, (kept i).saved]
      exact ⟨h.entry i, h.handler i, h.saved i⟩
  | reap procs reaps =>
      refine h.setProcs fun i => ?_
      rcases reaps i with he | ⟨-, he⟩
      · rw [he]
        exact ⟨h.entry i, h.handler i, h.saved i⟩
      · rw [he]
        exact ⟨h.entry i, h.handler i, h.saved i⟩
  | @handle i f cur handles =>
      obtain ⟨saved, b, he, hsaved⟩ := handles (k.procs i)
      refine h.setProc ?_
      rw [he]
      refine ⟨h.entry i, h.handler i, fun regs hr => ?_⟩
      rcases hsaved with rfl | ⟨r, hframe, rfl⟩
      · exact h.saved i regs hr
      · cases hr
        exact h.frame k.current regs hframe
  | @disposition i signo handler mem =>
      refine h.setProc ⟨h.entry i, fun s => ?_, h.saved i⟩
      simp only [Function.update_apply]
      split_ifs
      · exact hS handler mem
      · exact h.handler i s
  | @pend i signo alive =>
      have h₁ : UserStarts S (k.setProc i fun p =>
          { p with sigPending := Function.update p.sigPending signo true }) :=
        h.setProc ⟨h.entry i, h.handler i, h.saved i⟩
      obtain ⟨o, -, he⟩ := pendSignal_eq k i signo
      rw [he]
      exact h₁.setTaskState _ _
  | state => exact h.setTaskState _ _
  | frame regs user rip =>
      refine h.setTask fun r hr => ?_
      cases hr
      rcases rip with hs | ⟨i, -, ⟨s, he⟩ | hsaved⟩
      · exact hS _ hs
      · rw [he]
        exact h.handler i s
      · exact h.saved i regs hsaved
  | trampoline hs => exact h.spawnTrampoline hs
  | @ends i f mem alive dead =>
      obtain ⟨code, he⟩ := dead (k.procs i)
      refine (h.setProc ?_).setTaskState _ _
      rw [he]
      exact ⟨h.entry i, h.handler i, h.saved i⟩
  | switch _ hs =>
      refine h.of_procs (switchTask_outside hs).1.procs fun t regs hr => ?_
      obtain ⟨st, he, -⟩ := switchTask_tasks hs t
      rw [he] at hr
      exact h.frame t regs hr

theorem moves {E : Scope} (hS : ∀ a, E.starts a → S a) (hm : Moves E k k') : UserStarts S k' :=
  hm.invariant (I := UserStarts S) h fun _ _ h₁ hm₁ => h₁.move hS hm₁

/-- The processes change, and nothing else. -/
theorem outsideProcs (ho : OutsideProcs k k')
    (hp : ∀ i, S (k'.procs i).spawnEntry ∧ (∀ s, S ((k'.procs i).sigHandlers s)) ∧
      ∀ regs, (k'.procs i).sigSavedRegs = some regs → S regs.rip) : UserStarts S k' := by
  refine ⟨?_, fun i => (hp i).1, fun i => (hp i).2.1, fun i => (hp i).2.2⟩
  rw [ho.tasks]
  exact h.frame

/-- A new process has no handlers and no entry point yet. -/
theorem conceived (h₀ : S 0) {i : ℕ} (hc : Conceived k i k') : UserStarts S k' := by
  refine h.outsideProcs hc.outside fun j => ?_
  by_cases hji : j = i
  · subst hji
    obtain ⟨_, _, _, _, _, _, he⟩ := hc.child
    rw [he]
    exact ⟨h₀, fun _ => h₀, fun regs hr => by cases hr⟩
  · rw [hc.old j hji]
    exact h.reaped h₀ j

theorem taskAlloc {name : List UInt8} {stackBase : ℕ} {r : Option ℕ}
    (ha : taskAlloc k name stackBase = some (r, k')) : UserStarts S k' := by
  refine h.of_procs (taskAlloc_outside ha).1.procs fun t regs hr => ?_
  rcases taskAlloc_tasks ha t with ⟨next, he⟩ | ⟨-, -, he⟩
  · rw [he] at hr
    exact h.frame t regs hr
  · rw [he] at hr
    cases hr

theorem launch {i t pml4 : ℕ} {fr : Frame} {f : Process → Process} (hfr : ∀ regs, fr = .user regs → S regs.rip)
    (hf : S (f (k.procs i)).spawnEntry ∧ (f (k.procs i)).sigHandlers = (k.procs i).sigHandlers ∧
      (f (k.procs i)).sigSavedRegs = (k.procs i).sigSavedRegs) :
    UserStarts S (launch k i t pml4 fr f) := by
  obtain ⟨hentry, hhandlers, hsaved⟩ := hf
  have hprocs : ∀ j, S ((LighthOS.launch k i t pml4 fr f).procs j).spawnEntry ∧
      (∀ s, S (((LighthOS.launch k i t pml4 fr f).procs j).sigHandlers s)) ∧
      ∀ regs, ((LighthOS.launch k i t pml4 fr f).procs j).sigSavedRegs = some regs → S regs.rip := by
    intro j
    rw [launch_procs]
    split_ifs
    · rw [hhandlers, hsaved]
      exact ⟨hentry, h.handler i, h.saved i⟩
    · exact ⟨h.entry j, h.handler j, h.saved j⟩
  refine ⟨fun u regs hr => ?_, fun j => (hprocs j).1, fun j => (hprocs j).2.1, fun j => (hprocs j).2.2⟩
  obtain ⟨next, he⟩ := launch_tasks k i t pml4 fr f u
  rw [he] at hr
  split_ifs at hr
  · exact hfr regs hr
  · exact h.frame u regs hr

/-- **`process_spawn_from_memory` and `process_fork`**: a program starts at an entry point
of its image, and a child goes on where its parent does. -/
theorem births (h₀ : S 0) {name : List UInt8} {r : Option ℕ} {T : ℕ → Prop}
    (hT : ∀ a, T a → S a) (hb : Births T k name r k') : UserStarts S k' := by
  have hgone : ∀ {k₁ : Kernel} {i : ℕ} {vm : Vm}, UserStarts S k₁ →
      UserStarts S (abandon { k₁ with vm := vm } i) := by
    intro k₁ i vm h₁
    have h₂ : UserStarts S { k₁ with vm := vm } := ⟨h₁.frame, h₁.entry, h₁.handler, h₁.saved⟩
    exact h₂.setProc ⟨h₁.entry i, h₁.handler i, h₁.saved i⟩
  cases hb with
  | full ho procs => exact h.outsideProcs ho (procs ▸ h.reaped h₀)
  | @born i k₁ _ _ hc _ hb =>
      have h₁ := h.conceived h₀ hc
      cases hb with
      | gaveUp => exact hgone h₁
      | failed ha => exact hgone (h₁.taskAlloc ha)
      | @spawned _ _ _ _ _ k₂ ha start =>
          have h₂ := h₁.taskAlloc ha
          have h₃ : UserStarts S { k₂ with gSpawning := some i } :=
            ⟨h₂.frame, h₂.entry, h₂.handler, h₂.saved⟩
          exact h₃.launch (fun regs hr => by cases hr) ⟨hT _ start, rfl, rfl⟩
      | forked ha =>
          refine (h₁.taskAlloc ha).launch (fun regs hr => ?_) ⟨(h₁.taskAlloc ha).entry i, rfl, rfl⟩
          unfold childFrame at hr
          split at hr
          · next regs' hframe =>
              cases hr
              exact h₁.frame _ regs' hframe
          · next hne =>
              exact absurd hr (hne regs)

end

end UserStarts

/-! ### Runs -/

/-- The addresses that a step brings in are in `S`, also where it spawns a program. -/
def KernelOp.StartsIn (S : ℕ → Prop) : KernelOp → Prop
  | .spawn a => ∀ x, EntryOf a.elf a.files x → S x
  | .execve _ elf files _ _ => ∀ x, EntryOf elf files x → S x
  | .signal _ handler => S handler
  | .userRun regs => S regs.rip
  | _ => True

instance (S : ℕ → Prop) [DecidablePred S] (op : KernelOp) : Decidable (op.StartsIn S) :=
  match op with
  | .spawn _ | .execve .. => by
      unfold KernelOp.StartsIn EntryOf
      infer_instance
  | .signal _ handler => inferInstanceAs (Decidable (S handler))
  | .userRun regs => inferInstanceAs (Decidable (S regs.rip))
  | .enableScheduling | .schedule | .tickAlarms | .deliver | .fault .. | .killForeground | .stopForeground
  | .trampoline | .waitpid .. | .fork .. | .exit .. | .kill .. | .pause | .sigreturn | .alarm ..
  | .setpgid .. | .setForeground .. | .pipe .. | .dup2 .. | .close .. | .mmapAnon .. | .mprotect ..
  | .vgaGfx .. => .isTrue trivial

/-- **One step** starts user code where it is told to. -/
theorem UserStarts.step {S : ℕ → Prop} {k k' : Kernel} {op : KernelOp} (h : UserStarts S k) (h₀ : S 0)
    (hop : op.StartsIn S) (hs : kernelRun k op = some k') : UserStarts S k' := by
  rcases kernelRun_cases hs with hm | ⟨a, r, rfl, hb⟩ | ⟨b, i, name, r, rfl, -, -, hb⟩ | ⟨i, rfl, -, -, hs⟩
  · refine h.moves (fun a ha => ?_) hm
    cases op with
    | execve => exact hop a ha
    | signal => exact ha ▸ hop
    | userRun => exact ha ▸ hop
    | _ => exact ha.elim
  · exact h.births h₀ hop hb
  · exact h.births h₀ (fun _ ha => ha.elim) hb
  · exact (h.setTaskState _ _).moves (fun _ ha => False.elim ha) (.schedule hs)

/-- An address of the user half. -/
def IsUserAddr (a : ℕ) : Prop := a < 2 ^ 47

instance : DecidablePred IsUserAddr := fun a => inferInstanceAs (Decidable (a < 2 ^ 47))

/-- **The kernel returns to user code at user addresses**, in every run in which the entry
points of the programs and of their interpreters, and the signal handlers, are below
`2^47`. -/
theorem user_rip_canonical {k : Kernel}
    (h : (kernelSystem.restrict fun _ op => op.StartsIn IsUserAddr).Reaches k) {t : ℕ} {regs : Regs}
    (hu : (k.tasks t).frame = .user regs) : regs.rip < 2 ^ 47 := by
  have h₀ : IsUserAddr 0 := by simp [IsUserAddr]
  have hstarts : UserStarts IsUserAddr k := by
    refine h.invariant (I := UserStarts IsUserAddr) ?_ fun k₁ op k₂ h₁ ⟨hop, hs⟩ => h₁.step h₀ hop hs
    rintro _ ⟨-, -, -, vm, -, rfl⟩
    refine ⟨fun t regs hr => ?_, fun _ => h₀, fun _ _ => h₀, fun _ regs hr => by cases hr⟩
    simp only [kernelInit] at hr
    split_ifs at hr
    cases hr
  exact hstarts.frame t regs hu

/-- The instruction pointer of a frame in user mode. -/
def Frame.rip? : Frame → Option ℕ
  | .user regs => some regs.rip
  | _ => none

theorem Frame.rip?_eq_some {fr : Frame} {a : ℕ} :
    fr.rip? = some a ↔ ∃ regs, fr = .user regs ∧ regs.rip = a := by
  cases fr <;> simp [Frame.rip?]

/-- The hypotheses of `user_rip_canonical` are satisfiable: the first process installs a
handler, sends itself the signal and is in the handler. -/
theorem user_rip_canonical_handler : ∃ k regs,
    (kernelSystem.restrict fun _ op => op.StartsIn IsUserAddr).Reaches k ∧
    (k.tasks 1).frame = .user regs ∧ regs.rip = 0x401000 ∧ regs.rip < 2 ^ 47 := by
  have hrun : (smallKernel.bind fun k => System.exec
      (fun k op => if op.StartsIn IsUserAddr then kernelRun k op else none) k
      (startOps ++ [.signal 10 0x401000, .kill 1 10, .deliver])).any
        (fun k => (k.tasks 1).frame.rip? = some 0x401000) = true := by decide +kernel
  obtain ⟨k, hreach, hprop⟩ := System.exists_restrict_reaches init_smallKernel hrun
  obtain ⟨regs, hu, hrip⟩ := Frame.rip?_eq_some.1 hprop
  exact ⟨k, regs, hreach, hu, hrip, user_rip_canonical hreach hu⟩

/-- A program whose entry point is not canonical. -/
def farImage : Image := { smallImage with data := fun i => if i = 31 then 0x80 else smallImage.data i }

/-- A run that spawns it and a run that installs such a handler, with the addresses that
they go to. -/
def farRuns : List (List KernelOp × ℕ) :=
  [(.spawn ⟨[97], farImage, none, fun _ => none, 0x1000⟩ :: startOps.drop 1, 0x8000000000400000),
    (startOps ++ [.signal 10 0x800000000000, .kill 1 10, .deliver], 0x800000000000)]

/-- The first process returns to user mode at `addr`, which is not canonical. -/
def ReturnsFar (addr : ℕ) : Prop :=
  ∃ k regs, kernelSystem.Reaches k ∧ (k.tasks 1).frame = .user regs ∧ regs.rip = addr ∧
    ¬regs.rip < 2 ^ 47

/-- **The kernel returns to addresses that are not canonical**: the entry point of an image
and a signal handler are taken as they are. -/
theorem entry_not_canonical : ReturnsFar 0x8000000000400000 ∧ ReturnsFar 0x800000000000 := by
  have hrun : farRuns.all (fun r => decide (¬r.2 < 2 ^ 47) &&
      (smallKernel.bind fun k => System.exec kernelRun k r.1).any
        (fun k => (k.tasks 1).frame.rip? = some r.2)) = true := by decide +kernel
  have hfar : ∀ r ∈ farRuns, ReturnsFar r.2 := by
    intro r hr
    have hr := List.all_eq_true.1 hrun r hr
    rw [Bool.and_eq_true] at hr
    obtain ⟨k, hreach, hprop⟩ := System.exists_reaches init_smallKernel hr.2
    obtain ⟨regs, hu, hrip⟩ := Frame.rip?_eq_some.1 hprop
    exact ⟨k, regs, hreach, hu, hrip, hrip ▸ of_decide_eq_true hr.1⟩
  exact ⟨hfar (farRuns.get ⟨0, by decide⟩) (List.get_mem _ _),
    hfar (farRuns.get ⟨1, by decide⟩) (List.get_mem _ _)⟩

end LighthOS
