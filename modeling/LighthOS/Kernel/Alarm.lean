/-
# Alarms

`process_set_alarm` of `src/kernel/process.c` sets a countdown of `100 * secs` ticks and
returns the seconds that were left of the last one, rounded up; `process_tick_alarms`, called
by the timer a hundred times a second, counts it down for living processes and makes
`SIG_ALRM` pending when it gets to zero.  The product and the rounding are in 32 bits, and
right where they do not wrap (`alarm_exact_iff`).
-/

import LighthOS.Kernel.WaitStatus

namespace LighthOS

/-- What `process_set_alarm` returns; `processSetAlarm` is what it does. -/
def alarmReturn (k : Kernel) : ℕ :=
  match processCurrent k with
  | none => 0
  | some i => ((k.procs i).alarmTicks + 99) % 2 ^ 32 / 100

/-- The next tick makes `SIG_ALRM` pending for the process `i`, whether or not it is already. -/
def Fires (k : Kernel) (i : ℕ) : Prop :=
  ((processTickAlarms (k.setProc i fun p =>
    { p with sigPending := Function.update p.sigPending sigAlrm false })).procs i).sigPending sigAlrm = true

instance (k : Kernel) (i : ℕ) : Decidable (Fires k i) := inferInstanceAs (Decidable (_ = true))

/-- A run from `k₀` with `n` ticks, in which the process `i` is alive and does not call
`SYS_ALARM`. -/
inductive Ticking (i : ℕ) (k₀ : Kernel) : ℕ → Kernel → Prop
  | start : Ticking i k₀ 0 k₀
  | tick {n : ℕ} {k : Kernel} (h : Ticking i k₀ n k) (alive : (k.procs i).alive = true) :
      Ticking i k₀ (n + 1) (processTickAlarms k)
  | step {n : ℕ} {k k' : Kernel} {op : KernelOp} (h : Ticking i k₀ n k) (alive : (k.procs i).alive = true)
      (run : kernelStep k op = some k') (noTick : op ≠ .tickAlarms)
      (noAlarm : ∀ s, op = .alarm s → processCurrent k ≠ some i) : Ticking i k₀ n k'

section Countdown

variable {k k₀ : Kernel} {i n secs : ℕ}

theorem fires_iff (hi : i < processMax) (ha : (k.procs i).alive = true) :
    Fires k i ↔ (k.procs i).alarmTicks = 1 := by
  unfold Fires
  rw [processTickAlarms_procs, if_pos hi, Kernel.setProc_procs, if_pos rfl, tickProc]
  by_cases h₀ : 0 < (k.procs i).alarmTicks
  · by_cases h₁ : (k.procs i).alarmTicks = 1
    · simp [ha, h₁]
    · simp [ha, h₀, h₁]
  · simp [h₀]
    omega

/-- **The countdown**: as many ticks are left as the run has not had. -/
theorem Ticking.alarmTicks (hi : i < processMax) (h : Ticking i k₀ n k) :
    (k.procs i).alarmTicks = (k₀.procs i).alarmTicks - n := by
  induction h with
  | start => rfl
  | @tick n k _ alive ih =>
      rw [processTickAlarms_procs, if_pos hi, tickProc]
      by_cases hc : 0 < (k.procs i).alarmTicks
      · rw [if_pos (by simp [alive, hc])]
        change (k.procs i).alarmTicks - 1 = _
        omega
      · rw [if_neg (by simp [hc])]
        omega
  | @step n k k' op _ alive run noTick noAlarm ih =>
      rw [← ih]
      by_cases halarm : ∃ s, op = .alarm s
      · obtain ⟨s, rfl⟩ := halarm
        have hother := noAlarm s rfl
        cases run
        unfold processSetAlarm
        split
        · rfl
        · next j hj =>
            rw [Kernel.setProc_procs, if_neg]
            rintro rfl
            exact hother hj
      · exact (kernelStep_keeps run noTick (fun s he => halarm ⟨s, he⟩) i).1 alive

/-- Ticks alone are a run. -/
theorem ticking_replicate (ha : (k₀.procs i).alive = true) (n : ℕ) :
    ∃ k, Ticking i k₀ n k ∧ (k.procs i).alive = true := by
  induction n with
  | zero => exact ⟨k₀, .start, ha⟩
  | succ n ih =>
      obtain ⟨k, hk, ha⟩ := ih
      refine ⟨_, hk.tick ha, ?_⟩
      rw [processTickAlarms_procs]
      unfold tickProc
      split_ifs <;> exact ha

theorem processSetAlarm_procs (hcur : processCurrent k₀ = some i) (secs : ℕ) :
    (processSetAlarm k₀ secs).procs i = { k₀.procs i with alarmTicks := secs * 100 % 2 ^ 32 } := by
  unfold processSetAlarm
  rw [hcur]
  simp

end Countdown

/-- `SIG_ALRM` comes with the tick number `100 * secs` of the process, and with no other one. -/
def AlarmExact (k₀ : Kernel) (i secs : ℕ) : Prop :=
  ∀ n k, Ticking i (processSetAlarm k₀ secs) n k → (k.procs i).alive = true → (Fires k i ↔ n + 1 = 100 * secs)

/-- **Alarms are exact** for the current process exactly where `100 * secs` and the ticks that are
left, rounded up, are below `2 ^ 32`. -/
theorem alarm_exact_iff (k₀ : Kernel) (i secs : ℕ) (hcur : processCurrent k₀ = some i) (hsecs : 0 < secs)
    (hprev : (k₀.procs i).alarmTicks < 2 ^ 32) :
    (AlarmExact k₀ i secs ∧ IsLeast { r | (k₀.procs i).alarmTicks ≤ 100 * r } (alarmReturn k₀)) ↔
      100 * secs < 2 ^ 32 ∧ (k₀.procs i).alarmTicks + 99 < 2 ^ 32 := by
  obtain ⟨hi, halive, -⟩ := processCurrent_eq_some hcur
  have hset := processSetAlarm_procs hcur secs
  have hfires : ∀ {n k}, Ticking i (processSetAlarm k₀ secs) n k → (k.procs i).alive = true →
      (Fires k i ↔ secs * 100 % 2 ^ 32 - n = 1) := by
    intro n k hrun ha
    rw [fires_iff hi ha, hrun.alarmTicks hi, hset]
  have hreturn : alarmReturn k₀ = ((k₀.procs i).alarmTicks + 99) % 2 ^ 32 / 100 := by
    rw [alarmReturn, hcur]
  constructor
  · rintro ⟨hexact, hleast⟩
    constructor
    · -- the tick that should make the signal pending
      have hlive : ((processSetAlarm k₀ secs).procs i).alive = true := by
        rw [hset]
        exact halive
      obtain ⟨k, hrun, ha⟩ := ticking_replicate hlive (100 * secs - 1)
      have := (hfires hrun ha).1 ((hexact _ k hrun ha).2 (by omega))
      omega
    · have hcover : _ ≤ 100 * alarmReturn k₀ := hleast.1
      rw [hreturn] at hcover
      omega
  · rintro ⟨hlt, hround⟩
    refine ⟨fun n k hrun ha => (hfires hrun ha).trans (by omega), ?_, fun r hr => ?_⟩
    · change _ ≤ 100 * alarmReturn k₀
      rw [hreturn]
      omega
    · have hr : _ ≤ 100 * r := hr
      rw [hreturn]
      omega

/-- The hypotheses of `alarm_exact_iff` are satisfiable: the first process sets an alarm of one
second. -/
theorem alarm_exact_iff_second : ∃ k, kernelSystem.Reaches k ∧ processCurrent k = some 0 ∧ AlarmExact k 0 1 := by
  have hrun : (smallKernel.bind fun k => System.exec kernelRun k startOps).any
      (fun k => decide (processCurrent k = some 0 ∧ (k.procs 0).alarmTicks = 0)) = true := by
    decide +kernel
  obtain ⟨k, hreach, hcur, hticks⟩ := System.exists_reaches init_smallKernel hrun
  exact ⟨k, hreach, hcur,
    ((alarm_exact_iff k 0 1 hcur Nat.one_pos (by rw [hticks]; norm_num)).2
      ⟨by norm_num, by rw [hticks]; norm_num⟩).1⟩

/-- An alarm of `42949673` seconds comes with the fourth tick, and one of `42949672` seconds counts
as none when the next one is set. -/
theorem alarm_wraps : ∃ k, kernelSystem.Reaches k ∧ processCurrent k = some 0 ∧
    Fires (processTickAlarms (processTickAlarms (processTickAlarms (processSetAlarm k 42949673)))) 0 ∧
    ((processSetAlarm k 42949672).procs 0).alarmTicks = 4294967200 ∧
    alarmReturn (processSetAlarm k 42949672) = 0 := by
  refine System.exists_reaches (l := startOps) init_smallKernel ?_
  decide +kernel

end LighthOS
