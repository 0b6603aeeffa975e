/-
# Signals and the context that they interrupt

Between being sent and being handled a signal is a bit of `sig_pending`, and between the
delivery of a signal and `sigreturn` the interrupted registers are in `sig_saved_regs`.
Sends, ticks, switches and programs in user mode only ever add bits and leave the saved
registers alone (`sigStep_kept`); so does a delivery while a handler runs, which does
nothing.

`process_deliver_pending_signals` clears the bit first and pushes a word on the user stack
last.  Where the page below the stack pointer is not mapped, it returns with the bit gone and
no handler entered.  This is the only way to lose a signal (`signalsInOrder_iff`).
-/

import LighthOS.Kernel.Machine

namespace LighthOS

/-! ### Runs -/

/-- What happens to the signals of processes: they are sent by a process, by the keyboard or by
the clock, handlers are installed, a signal is delivered to the current process, it returns from
a handler, it runs in user mode, and another task becomes the current one. -/
inductive SigOp
  | kill (pid signo : ℤ)
  | killForeground
  | stopForeground
  | tickAlarms
  | alarm (secs : ℕ)
  | signal (signo : ℤ) (handler : ℕ)
  | deliver
  | sigreturn
  | userRun (regs : Regs)
  | switch

/-- One step; none where the machine halts. -/
def sigStep (k : Kernel) : SigOp → Option Kernel
  | .kill pid signo => some (processKill k pid signo).2
  | .killForeground => some (processKillForeground k)
  | .stopForeground => some (processStopForeground k)
  | .tickAlarms => some (processTickAlarms k)
  | .alarm secs => some (processSetAlarm k secs)
  | .signal signo handler => some (processSignal k signo handler)
  | .deliver => processDeliverPendingSignals k
  | .sigreturn => some (processSigreturn k)
  | .userRun regs => some (k.setTask k.current fun t => { t with frame := .user regs })
  | .switch => switchTask k

/-- **A handler is entered**: the process `i` was interrupted with these registers, which are
saved, and goes on in its handler for the signal. -/
structure Enters (k k' : Kernel) (i signo : ℕ) (regs : Regs) : Prop where
  current : processCurrent k = some i
  interrupted : (k.tasks k.current).frame = .user regs
  delivering : (k'.procs i).sigDelivering = true
  saved : (k'.procs i).sigSavedRegs = some regs
  frame : (k'.tasks k'.current).frame = .user
    { regs with rsp := (regs.rsp + 2 ^ 64 - 8) % 2 ^ 64, rip := (k.procs i).sigHandlers signo, rdi := signo }

/-- What a step may do to the signals: a pending signal with a handler stays pending unless its
handler is entered, and while a handler runs a delivery does nothing. -/
structure StepLaw (k : Kernel) (op : SigOp) (k' : Kernel) : Prop where
  kept : ∀ i signo, signo < nsig → 1 < (k.procs i).sigHandlers signo → (k.procs i).sigPending signo = true →
    (k'.procs i).sigPending signo = true ∨ op = .deliver ∧ ∃ regs, Enters k k' i signo regs
  single : ∀ i, op = .deliver → processCurrent k = some i → (k.procs i).sigDelivering = true → k' = k

/-- The process `i` returns to these registers: up to its next `sigreturn`, and in it, what is
pending stays pending, and `sigreturn` restores the registers. -/
def ReturnsTo (i : ℕ) (regs : Regs) : Kernel → List SigOp → Prop
  | _, [] => True
  | k, op :: ops => ∀ k', sigStep k op = some k' →
      (∀ signo, (k.procs i).sigPending signo = true → (k'.procs i).sigPending signo = true) ∧
      (op = .sigreturn ∧ processCurrent k = some i → (k'.tasks k'.current).frame = .user regs) ∧
      (¬(op = .sigreturn ∧ processCurrent k = some i) → ReturnsTo i regs k' ops)

/-- **Signals are neither lost nor reordered** along a run. -/
def SignalsInOrder : Kernel → List SigOp → Prop
  | _, [] => True
  | k, op :: ops => ∀ k', sigStep k op = some k' →
      StepLaw k op k' ∧ (∀ i signo regs, op = .deliver → Enters k k' i signo regs → ReturnsTo i regs k' ops) ∧
        SignalsInOrder k' ops

/-! ### The delivery -/

/-- The page below the stack pointer is mapped. -/
def StackMapped (k : Kernel) (regs : Regs) : Prop :=
  (k.tasks k.current).pml4 ≠ 0 ∧
    vmmGetPhysicalIn k.vm (k.tasks k.current).pml4 (pageDown ((regs.rsp + 2 ^ 64 - 8) % 2 ^ 64)) ≠ 0

instance (k : Kernel) (regs : Regs) : Decidable (StackMapped k regs) := inferInstanceAs (Decidable (_ ∧ _))

/-- **Room for a handler**: where a delivery is to enter one, the page below the stack pointer
is mapped. -/
def SigOp.HasStack (k : Kernel) : SigOp → Prop
  | .deliver => ∀ regs i signo, Due k regs i signo → 1 < (k.procs i).sigHandlers signo →
      StackMapped k regs
  | _ => True

/-- Every delivery of a run has room for the handler. -/
def StacksMapped : Kernel → List SigOp → Prop
  | _, [] => True
  | k, op :: ops => ∀ k', sigStep k op = some k' → op.HasStack k ∧ StacksMapped k' ops

theorem Due.unique {k : Kernel} {regs regs' : Regs} {i i' signo signo' : ℕ} (h : Due k regs i signo)
    (h' : Due k regs' i' signo') : regs = regs' ∧ i = i' ∧ signo = signo' := by
  have hi := Option.some.inj (h.current.symm.trans h'.current)
  subst hi
  exact ⟨Frame.user.inj (h.frame.symm.trans h'.frame), rfl, Option.some.inj (h.next.symm.trans h'.next)⟩

/-- The bit of this signal is cleared, and nothing else is pending or not as before. -/
structure Cleared (k k' : Kernel) (i signo : ℕ) : Prop where
  pending : (k'.procs i).sigPending = Function.update (k.procs i).sigPending signo false
  others : ∀ j, j ≠ i → k'.procs j = k.procs j

/-- The push of a word fails exactly where the page is not mapped. -/
theorem userPushZero_failed {s s' : Vm} {pml4 rsp : ℕ} {b : Bool} (h : userPushZero s pml4 rsp = some (b, s')) :
    b = true ↔ pml4 ≠ 0 ∧ vmmGetPhysicalIn s pml4 (pageDown rsp) ≠ 0 := by
  unfold userPushZero at h
  split_ifs at h with hroot
  · cases h
    simp [hroot]
  · unfold putUser at h
    simp only at h
    split_ifs at h with hphys
    · cases h
      simp [pageDown, hphys]
    · obtain ⟨vm, -, hvm⟩ := Option.map_eq_some_iff.1 h
      cases hvm
      exact iff_of_true rfl ⟨hroot, hphys⟩

/-- **What `process_deliver_pending_signals` does**: nothing where no signal is due; otherwise it
clears the bit, and where there is a handler it is entered if there is a stack. -/
theorem deliver_spec {k k' : Kernel} (h : processDeliverPendingSignals k = some k') :
    (k' = k ∧ ∀ regs i signo, ¬Due k regs i signo) ∨
    ∃ regs i signo, Due k regs i signo ∧ Cleared k k' i signo ∧
      ((k.procs i).sigHandlers signo ≤ 1 ∨ 1 < (k.procs i).sigHandlers signo ∧
        (StackMapped k regs ∧ Enters k k' i signo regs ∨
          ¬StackMapped k regs ∧ (k'.procs i).sigDelivering = false)) := by
  rcases deliver_cases h with hnone | ⟨regs, i, signo, hdue, hd⟩
  · exact Or.inl hnone
  have hcleared : Cleared k (takeSignal k i signo) i signo :=
    ⟨by simp [takeSignal], fun j hj => by simp [takeSignal, hj]⟩
  have hset : ∀ {k₁ : Kernel} (f : Process → Process), Cleared k k₁ i signo →
      (∀ p, (f p).sigPending = p.sigPending) → Cleared k (k₁.setProc i f) i signo := fun f hc hf =>
    ⟨by simp [hf, hc.pending], fun j hj => by simp [hj, hc.others]⟩
  have hsaved : Cleared k (saveRegs (takeSignal k i signo) i regs) i signo := hset _ hcleared fun _ => rfl
  refine Or.inr ⟨regs, i, signo, hdue, ?_⟩
  cases hd with
  | ended hdefault =>
      obtain ⟨h₁, h₂⟩ := hset (fun p => { p with exitCode := 128 + signo, alive := false }) hcleared fun _ => rfl
      rw [← Kernel.setTaskState_procs _ (k.procs i).task .dead] at h₁ h₂
      exact ⟨⟨h₁, h₂⟩, Or.inl (by omega)⟩
  | ignored handler => exact ⟨hcleared, Or.inl handler⟩
  | refused handler push =>
      obtain ⟨h₁, h₂⟩ := hset (fun p => { p with sigDelivering := false }) hsaved fun _ => rfl
      have hmapped : ¬StackMapped k regs := fun hm => absurd ((userPushZero_failed push).2 hm) Bool.false_ne_true
      exact ⟨⟨h₁, h₂⟩, Or.inr ⟨handler, Or.inr ⟨hmapped, by simp⟩⟩⟩
  | entered handler push =>
      refine ⟨⟨hsaved.pending, hsaved.others⟩, Or.inr ⟨handler, Or.inl ⟨(userPushZero_failed push).1 rfl,
        hdue.current, hdue.frame, ?_, ?_, ?_⟩⟩⟩
      all_goals simp [saveRegs, takeSignal]

/-! ### What the other steps leave alone -/

/-- The process `i` keeps its handlers' context: no bit is cleared, and what is saved stays saved. -/
structure SigKept (k k' : Kernel) (i : ℕ) : Prop where
  pending : ∀ signo, (k.procs i).sigPending signo = true → (k'.procs i).sigPending signo = true
  delivering : (k'.procs i).sigDelivering = (k.procs i).sigDelivering
  saved : (k'.procs i).sigSavedRegs = (k.procs i).sigSavedRegs

theorem SigKept.of_procs {k k' : Kernel} {i : ℕ} (h : k'.procs i = k.procs i) : SigKept k k' i := by
  refine ⟨fun signo hp => ?_, ?_, ?_⟩ <;> rw [h]
  exact hp

theorem SigKept.trans {k k₁ k₂ : Kernel} {i : ℕ} (h₁ : SigKept k k₁ i) (h₂ : SigKept k₁ k₂ i) : SigKept k k₂ i :=
  ⟨fun signo hp => h₂.pending signo (h₁.pending signo hp), h₂.delivering.trans h₁.delivering,
    h₂.saved.trans h₁.saved⟩

/-- A bit that is set clears none. -/
theorem update_true_of_true (pending : ℕ → Bool) (signo s : ℕ) (h : pending s = true) :
    Function.update pending signo true s = true := by
  rw [Function.update_apply]
  split_ifs
  · rfl
  · exact h

theorem SigKept.setProc {k k₁ : Kernel} {i : ℕ} (h : SigKept k k₁ i) (j : ℕ) {f : Process → Process}
    (hf : ∀ p : Process, (∀ s, p.sigPending s = true → (f p).sigPending s = true) ∧
      (f p).sigDelivering = p.sigDelivering ∧ (f p).sigSavedRegs = p.sigSavedRegs) :
    SigKept k (k₁.setProc j f) i := by
  refine h.trans ?_
  by_cases hi : i = j
  · subst hi
    obtain ⟨hp, hd, hs⟩ := hf (k₁.procs i)
    refine ⟨?_, ?_, ?_⟩ <;> rw [Kernel.setProc_procs, if_pos rfl]
    · exact hp
    · exact hd
    · exact hs
  · exact SigKept.of_procs (by rw [Kernel.setProc_procs, if_neg hi])

theorem SigKept.setTaskState {k k₁ : Kernel} {i : ℕ} (h : SigKept k k₁ i) (t : Option ℕ) (st : TaskState) :
    SigKept k (k₁.setTaskState t st) i := h.trans (SigKept.of_procs (by rw [Kernel.setTaskState_procs]))

theorem sendSignal_kept (k : Kernel) (j signo i : ℕ) : SigKept k (sendSignal k j signo) i := by
  by_cases hi : i = j
  · subst hi
    refine ⟨fun s hp => ?_, ?_, ?_⟩ <;> rw [sendSignal_procs, if_pos rfl] <;> unfold Process.signalled <;> split_ifs
    any_goals rfl
    any_goals exact hp
    exact update_true_of_true _ _ _ hp
  · exact .of_procs (by rw [sendSignal_procs, if_neg hi])

theorem signalGroup_kept (k : Kernel) (pgid signo i : ℕ) : SigKept k (signalGroup k pgid signo) i :=
  signalGroup_rec (motive := fun k₁ => SigKept k k₁ i) (.of_procs rfl) fun _ _ h _ _ => h.trans (sendSignal_kept _ _ _ _)

theorem tickAlarm_kept (k : Kernel) (j i : ℕ) : SigKept k (tickAlarm k j) i := by
  have hk : SigKept k k i := SigKept.of_procs rfl
  have hticks : SigKept k (k.setProc j fun p => { p with alarmTicks := p.alarmTicks - 1 }) i :=
    hk.setProc j fun p => ⟨fun _ => id, rfl, rfl⟩
  unfold tickAlarm
  simp only
  split_ifs
  · refine SigKept.setTaskState ?_ _ _
    exact hticks.setProc j fun p => ⟨update_true_of_true _ _, rfl, rfl⟩
  · exact hticks.setProc j fun p => ⟨update_true_of_true _ _, rfl, rfl⟩
  · exact hticks
  · exact hk

theorem processKill_kept (k : Kernel) (pid signo : ℤ) (i : ℕ) : SigKept k (processKill k pid signo).2 i :=
  processKill_rec (motive := fun k₁ => SigKept k k₁ i) (.of_procs rfl) fun _ _ h _ _ => h.trans (sendSignal_kept _ _ _ _)

/-- `sigreturn` clears no bit. -/
theorem sigreturn_pending (k : Kernel) (i : ℕ) :
    ((processSigreturn k).procs i).sigPending = (k.procs i).sigPending := by
  unfold processSigreturn
  split
  · rfl
  · next j _ =>
    split
    · by_cases hi : i = j
      · simp [hi]
      · simp [hi]
    · rfl

/-- Every step but a delivery to `i` and a `sigreturn` of `i` keeps the context of `i`. -/
theorem sigStep_kept {k k' : Kernel} {op : SigOp} (h : sigStep k op = some k') (i : ℕ)
    (hop : processCurrent k = some i → op ≠ .deliver ∧ op ≠ .sigreturn) : SigKept k k' i := by
  have hk : SigKept k k i := SigKept.of_procs rfl
  cases op with
  | kill pid signo =>
    cases h
    exact processKill_kept _ _ _ _
  | killForeground =>
    cases h
    exact signalGroup_kept _ _ _ _
  | stopForeground =>
    cases h
    exact signalGroup_kept _ _ _ _
  | tickAlarms =>
    obtain rfl := Option.some.inj h
    exact List.foldlRecOn (motive := fun k₁ => SigKept k k₁ i) _ _ hk fun k₁ h₁ j _ =>
      h₁.trans (tickAlarm_kept _ _ _)
  | alarm secs =>
    cases h
    unfold processSetAlarm
    split
    · exact hk
    · exact hk.setProc _ fun p => ⟨fun _ => id, rfl, rfl⟩
  | signal signo handler =>
    cases h
    unfold processSignal
    split_ifs
    · exact hk
    · split
      · exact hk
      · exact hk.setProc _ fun p => ⟨fun _ => id, rfl, rfl⟩
  | deliver =>
    rcases deliver_spec h with ⟨rfl, -⟩ | ⟨regs, j, signo, hdue, hc, -⟩
    · exact hk
    · refine SigKept.of_procs (hc.others i ?_)
      rintro rfl
      exact (hop hdue.current).1 rfl
  | sigreturn =>
    cases h
    unfold processSigreturn
    split
    · exact hk
    · next j hj =>
      have hne : i ≠ j := by
        rintro rfl
        exact (hop hj).2 rfl
      split
      · exact SigKept.of_procs (by simp [hne])
      · exact hk
  | userRun regs =>
    cases h
    exact SigKept.of_procs rfl
  | switch => exact SigKept.of_procs (by rw [(switchTask_outside h).1.procs])

/-! ### Runs in which handlers have a stack -/

/-- A process that runs a handler returns to the registers that were saved. -/
theorem returnsTo_of_delivering (i : ℕ) (regs : Regs) (ops : List SigOp) :
    ∀ k : Kernel, (k.procs i).sigDelivering = true → (k.procs i).sigSavedRegs = some regs →
      ReturnsTo i regs k ops := by
  induction ops with
  | nil => exact fun _ _ _ => trivial
  | cons op ops ih =>
    intro k hd hs k' hstep
    by_cases hret : op = .sigreturn ∧ processCurrent k = some i
    · obtain ⟨rfl, hi⟩ := hret
      have hk' : k' = (k.setTask k.current fun t => { t with frame := .user regs }).setProc i
          fun p => { p with sigDelivering := false } := by
        rw [sigStep, Option.some.injEq] at hstep
        rw [← hstep, processSigreturn, hi]
        simp only [hd, hs]
      subst hk'
      refine ⟨fun signo hp => ?_, fun _ => by simp, fun h => absurd ⟨rfl, hi⟩ h⟩
      simpa using hp
    · -- a delivery to a process that runs a handler does nothing
      have hk : SigKept k k' i := by
        by_cases hdel : op = .deliver ∧ processCurrent k = some i
        · obtain ⟨rfl, hi⟩ := hdel
          rcases deliver_spec hstep with ⟨rfl, -⟩ | ⟨_, j, _, hdue, -⟩
          · exact SigKept.of_procs rfl
          · cases hi.symm.trans hdue.current
            exact absurd (hd.symm.trans hdue.idle) (by simp)
        · exact sigStep_kept hstep i fun hi => ⟨fun ho => hdel ⟨ho, hi⟩, fun ho => hret ⟨ho, hi⟩⟩
      exact ⟨hk.pending, fun h => absurd h hret, fun _ => ih k' (hk.delivering.trans hd) (hk.saved.trans hs)⟩

/-- **One step**: it keeps the law of signals exactly where a handler that is to be entered has a
stack. -/
theorem stepLaw_iff {k k' : Kernel} {op : SigOp} (h : sigStep k op = some k') :
    StepLaw k op k' ↔ op.HasStack k := by
  by_cases hop : op = .deliver
  · subst hop
    rcases deliver_spec h with ⟨rfl, hnone⟩ | ⟨regs, i, signo, hdue, hc, hcase⟩
    · exact iff_of_true ⟨fun _ _ _ _ hp => Or.inl hp, fun _ _ _ _ => rfl⟩
        fun regs i signo hdue => absurd hdue (hnone regs i signo)
    · obtain ⟨-, hpending⟩ := nextSignal_spec hdue.next
      have hcleared : (k'.procs i).sigPending signo = false := by rw [hc.pending, Function.update_self]
      constructor
      · intro hlaw regs' i' signo' hdue' hhandler
        obtain ⟨rfl, rfl, rfl⟩ := hdue.unique hdue'
        rcases hcase with hno | ⟨-, ⟨hm, -⟩ | ⟨-, hidle⟩⟩
        · omega
        · exact hm
        · rcases hlaw.kept i signo (nextSignal_spec hdue.next).1 hhandler hpending with hp | ⟨-, _, he⟩
          · exact absurd (hcleared.symm.trans hp) Bool.false_ne_true
          · exact absurd (hidle.symm.trans he.delivering) Bool.false_ne_true
      · intro hstack
        refine ⟨fun j s _ hhandler hp => ?_, fun j _ hj hd => ?_⟩
        · by_cases hj : j = i
          · subst hj
            by_cases hs : s = signo
            · subst hs
              rcases hcase with hno | ⟨-, ⟨-, he⟩ | ⟨hm, -⟩⟩
              · omega
              · exact Or.inr ⟨rfl, regs, he⟩
              · exact absurd (hstack regs j s hdue hhandler) hm
            · left
              rw [hc.pending, Function.update_of_ne hs]
              exact hp
          · left
            rw [hc.others j hj]
            exact hp
        · cases hj.symm.trans hdue.current
          exact absurd (hdue.idle.symm.trans hd) Bool.false_ne_true
  · have hstack : op.HasStack k := by
      cases op <;> trivial
    refine iff_of_true ⟨fun i signo _ _ hp => Or.inl ?_, fun _ ho => absurd ho hop⟩ hstack
    by_cases hret : op = .sigreturn
    · subst hret
      obtain rfl := Option.some.inj h
      rw [sigreturn_pending]
      exact hp
    · exact (sigStep_kept h i fun _ => ⟨hop, hret⟩).pending signo hp

/-- **Signals are neither lost nor reordered, exactly where handlers have a stack**: from every
state and along every sequence of sends, deliveries and returns, a pending signal with a handler
stays pending until the handler is entered, no handler interrupts another, and `sigreturn`
restores the interrupted registers with every signal that came meanwhile still pending, if and
only if the page below the stack pointer is mapped whenever a handler is to be entered. -/
theorem signalsInOrder_iff (k : Kernel) (ops : List SigOp) : SignalsInOrder k ops ↔ StacksMapped k ops := by
  induction ops generalizing k with
  | nil => exact iff_of_true trivial trivial
  | cons op ops ih =>
    refine forall₂_congr fun k' hstep => ?_
    rw [stepLaw_iff hstep, ih k']
    refine and_congr_right fun _ => and_iff_right fun i signo regs _ he => ?_
    exact returnsTo_of_delivering i regs ops k' he.delivering he.saved

/-- The first process installs a handler for `SIG_TERM`, and is sent the signal while its stack
pointer is at the bottom of the address space. -/
def lostSignalOps : List KernelOp :=
  startOps ++ [.signal sigTerm 0x400100, .userRun ⟨0x400000, 0x1000, 0, 0, fun _ => 0⟩, .kill 1 sigTerm]

/-- **A signal is lost where there is no stack**: in a state that is reached, the delivery clears
the bit of `SIG_TERM`, for which there is a handler, and does not enter it. -/
theorem deliver_loses_signal : ∃ k : Kernel, kernelSystem.Reaches k ∧ ¬SignalsInOrder k [.deliver] := by
  have hrun : (smallKernel.bind fun k => System.exec kernelRun k lostSignalOps).any
      (fun k => decide (1 < (k.procs 0).sigHandlers sigTerm ∧ (k.procs 0).sigPending sigTerm = true ∧
        ((processDeliverPendingSignals k).any fun k' =>
          !(k'.procs 0).sigPending sigTerm && !(k'.procs 0).sigDelivering) = true)) = true := by decide +kernel
  obtain ⟨k, hreach, hhandler, hpending, hafter⟩ := System.exists_reaches init_smallKernel hrun
  refine ⟨k, hreach, fun hlaw => ?_⟩
  obtain ⟨k', hstep, hlost⟩ := (Option.any_eq_true _ _).1 hafter
  rw [Bool.and_eq_true, Bool.not_eq_true', Bool.not_eq_true'] at hlost
  rcases (hlaw k' hstep).1.kept 0 sigTerm (by decide) hhandler hpending with hp | ⟨-, _, he⟩
  · exact absurd (hlost.1.symm.trans hp) Bool.false_ne_true
  · exact absurd (hlost.2.symm.trans he.delivering) Bool.false_ne_true

end LighthOS
