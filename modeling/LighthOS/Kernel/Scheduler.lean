/-
# The ring of tasks

`src/kernel/task.c` keeps the tasks in a circular list through their `next` fields.
`task_insert_ready` puts a task behind the current one, `task_alloc` takes a dead
task out when it reuses its slot, and `schedule` goes on with the first task behind
the current one that is ready or running.

`RingOk k o` says that the ring is intact, with its tasks in order from the one
behind the current task to the current task itself.  The idle task is in it and can
always run, so that the loop of `schedule` ends.
-/

import LighthOS.Kernel.Task
import LighthOS.Lib.Circle
import LighthOS.Lib.System

namespace LighthOS

/-- `TASK_READY` or `TASK_RUNNING`. -/
def Task.runnable (t : Task) : Bool := t.state = .ready ∨ t.state = .running

/-- The ring is intact and holds the tasks of `o`. -/
structure RingOk (k : Kernel) (o : List ℕ) : Prop where
  circle : LinkedCircle (fun i => (k.tasks i).next) k.current o
  slot : ∀ i ∈ o, i < taskMax
  named : ∀ i ∈ o, (k.tasks i).name ≠ []
  dead : ∀ i, (k.tasks i).state = .dead → i ∈ o
  idle : 0 ∈ o
  idleRuns : (k.tasks 0).runnable = true
  idleCurrent : k.current = 0 → (k.tasks 0).state = .running

/-- After boot the ring holds the idle task. -/
theorem RingOk.init (vm : Vm) : RingOk (kernelInit vm) [0] where
  circle := ⟨Links.cons_cons.2 ⟨rfl, List.isChain_singleton 0⟩, rfl, List.nodup_singleton 0⟩
  slot i hi := by rw [List.mem_singleton.1 hi]; decide
  named i hi := by rw [List.mem_singleton.1 hi]; simp [kernelInit]
  dead i hi := by
    simp only [kernelInit] at hi
    split_ifs at hi
    cases hi
  idle := List.mem_singleton_self 0
  idleRuns := rfl
  idleCurrent _ := rfl

/-! ### The loops -/

section Loops

variable {tasks : ℕ → Task}

/-- **The loop of `list_remove`** finds the task before the victim. -/
theorem findPrev_eq {victim p : ℕ} {m : List ℕ} {x fuel : ℕ}
    (h : Links (fun i => (tasks i).next) (x :: m ++ [victim])) (hm : victim ∉ m)
    (hp : (x :: m).getLast? = some p) (hfuel : m.length < fuel) :
    findPrev tasks victim fuel x = some p := by
  induction m generalizing x fuel with
  | nil =>
      obtain ⟨fuel, rfl⟩ := Nat.exists_eq_succ_of_ne_zero (Nat.ne_of_gt hfuel)
      have hx : (tasks x).next = some victim := (Links.cons_cons.1 h).1
      rw [findPrev, hx]
      simpa using hp
  | cons y m ih =>
      obtain ⟨fuel, rfl⟩ := Nat.exists_eq_succ_of_ne_zero (Nat.ne_of_gt (Nat.zero_lt_of_lt hfuel))
      obtain ⟨hx, h⟩ := Links.cons_cons.1 h
      have hx : (tasks x).next = some y := hx
      have hy : y ≠ victim := by
        rintro rfl
        exact hm List.mem_cons_self
      rw [findPrev, hx]
      simp only [hy, if_false]
      refine ih h (fun hv => hm (List.mem_cons_of_mem _ hv)) ?_ ?_
      · rwa [List.getLast?_cons_cons] at hp
      · simpa using hfuel

/-- **The loop of `schedule`** finds the first task that can run. -/
theorem findRunnable_eq {start n : ℕ} {m : List ℕ} {x fuel : ℕ}
    (h : Links (fun i => (tasks i).next) (x :: m ++ [n])) (hm : start ∉ m) (hn : n ≠ start)
    (hwait : ∀ y ∈ x :: m, (tasks y).runnable = false) (hrun : (tasks n).runnable = true)
    (hfuel : m.length + 1 < fuel) : findRunnable tasks start fuel x = some n := by
  have hx := hwait x List.mem_cons_self
  rw [Task.runnable, decide_eq_false_iff_not] at hx
  induction m generalizing x fuel with
  | nil =>
      obtain ⟨fuel, rfl⟩ : ∃ f, fuel = f + 2 := ⟨fuel - 2, by simp at hfuel; omega⟩
      have hl : (tasks x).next = some n := (Links.cons_cons.1 h).1
      rw [Task.runnable, decide_eq_true_iff] at hrun
      rw [findRunnable, if_neg hx, hl]
      simp only [hn, if_false]
      rw [findRunnable, if_pos hrun]
  | cons y m ih =>
      obtain ⟨fuel, rfl⟩ := Nat.exists_eq_succ_of_ne_zero (Nat.ne_of_gt (Nat.zero_lt_of_lt hfuel))
      obtain ⟨hl, h⟩ := Links.cons_cons.1 h
      have hl : (tasks x).next = some y := hl
      have hy : y ≠ start := by
        rintro rfl
        exact hm List.mem_cons_self
      rw [findRunnable, if_neg hx, hl]
      simp only [hy, if_false]
      have hwait := fun z hz => hwait z (List.mem_cons_of_mem _ hz)
      refine ih h (fun hv => hm (List.mem_cons_of_mem _ hv)) hwait ?_ ?_
      · simpa using hfuel
      · have hy := hwait y List.mem_cons_self
        rwa [Task.runnable, decide_eq_false_iff_not] at hy

end Loops

namespace RingOk

variable {k k' : Kernel} {o : List ℕ}

/-- The ring is about the names, the states and the links of the tasks. -/
theorem congr (h : RingOk k o) (hc : k'.current = k.current)
    (ht : ∀ i, (k'.tasks i).next = (k.tasks i).next ∧ (k'.tasks i).name = (k.tasks i).name ∧
      (k'.tasks i).state = (k.tasks i).state) : RingOk k' o := by
  refine ⟨?_, h.slot, fun i hi => ?_, fun i hi => ?_, h.idle, ?_, fun h₀ => ?_⟩
  · rw [hc]
    exact h.circle.congr fun i _ => (ht i).1
  · rw [(ht i).2.1]
    exact h.named i hi
  · rw [(ht i).2.2] at hi
    exact h.dead i hi
  · rw [Task.runnable, (ht 0).2.2]
    exact h.idleRuns
  · rw [(ht 0).2.2]
    exact h.idleCurrent (hc ▸ h₀)

theorem length_le (h : RingOk k o) : o.length ≤ taskMax := by
  have hsub : o ⊆ List.range taskMax := fun i hi => List.mem_range.2 (h.slot i hi)
  simpa using (h.circle.nodup.subperm hsub).length_le

/-- Some task of the ring can run. -/
theorem exists_runnable (h : RingOk k o) :
    ∃ a n b, o = a ++ n :: b ∧ (k.tasks n).runnable = true ∧ ∀ x ∈ a, (k.tasks x).runnable = false := by
  have hfind : (o.find? fun i => (k.tasks i).runnable).isSome := by
    rw [List.find?_isSome]
    exact ⟨0, h.idle, h.idleRuns⟩
  obtain ⟨n, hn⟩ := Option.isSome_iff_exists.1 hfind
  obtain ⟨hrun, a, b, ho, ha⟩ := List.find?_eq_some_iff_append.1 hn
  exact ⟨a, n, b, ho, hrun, fun x hx => by simpa using ha x hx⟩

/-- **The search of `schedule`** ends at the first task behind the current one that can
run. -/
theorem nextTask {a b : List ℕ} {n : ℕ} (h : RingOk k (a ++ n :: b))
    (hrun : (k.tasks n).runnable = true) (hwait : ∀ x ∈ a, (k.tasks x).runnable = false) :
    nextTask k = some n := by
  have hlen := h.length_le
  have hnodup := h.circle.nodup
  have hlinks := (Links.split (a := k.current :: a)).1 h.circle.links
  unfold LighthOS.nextTask
  cases a with
  | nil =>
      have hnext : (k.tasks k.current).next = some n := (Links.cons_cons.1 hlinks.1).1
      rw [Task.runnable, decide_eq_true_iff] at hrun
      rw [hnext]
      simp only
      rw [findRunnable, if_pos hrun]
  | cons s a =>
      obtain ⟨hnext, hlinks⟩ := Links.cons_cons.1 hlinks.1
      have hnext : (k.tasks k.current).next = some s := hnext
      rw [hnext]
      rw [List.cons_append, List.nodup_cons, List.mem_append, not_or] at hnodup
      refine findRunnable_eq hlinks hnodup.1.1 ?_ hwait hrun ?_
      · rintro rfl
        exact hnodup.1.2 List.mem_cons_self
      · simp only [List.length_append, List.length_cons] at hlen
        omega

end RingOk

/-- What `schedule` does to the tasks where it switches to another one. -/
theorem switchTask_eq {k : Kernel} {n : ℕ} (h : nextTask k = some n) (hn : n ≠ k.current) :
    switchTask k = some { k with
      tasks := fun i => { k.tasks i with state :=
        if i = n then .running
        else if i = k.current ∧ (k.tasks i).state = .running then .ready else (k.tasks i).state }
      current := n } := by
  unfold switchTask
  rw [h]
  have htasks : ∀ k₁ : Kernel, (∀ i, k₁.tasks i = { k.tasks i with state :=
        if i = k.current ∧ (k.tasks i).state = .running then .ready else (k.tasks i).state }) →
      (k₁.setTask n fun t => { t with state := .running }).tasks = fun i => { k.tasks i with state :=
        if i = n then .running
        else if i = k.current ∧ (k.tasks i).state = .running then .ready else (k.tasks i).state } := by
    intro k₁ hk₁
    funext i
    rw [Kernel.setTask_tasks]
    by_cases hi : i = n
    · simp only [hi, if_true]
      rw [hk₁]
    · simp only [hi, if_false]
      exact hk₁ i
  simp only [hn, if_false, Option.some.injEq]
  by_cases hr : (k.tasks k.current).state = .running
  · rw [if_pos hr, htasks _ fun i => ?_]
    · rfl
    · rw [Kernel.setTask_tasks]
      by_cases hi : i = k.current
      · simp [hi, hr]
      · simp [hi]
  · have hkeep : ∀ i, ¬(i = k.current ∧ (k.tasks i).state = .running) := by
      rintro i ⟨rfl, h⟩
      exact hr h
    rw [if_neg hr, htasks k fun i => by rw [if_neg (hkeep i)]]
    rfl

namespace RingOk

variable {k k' : Kernel} {o : List ℕ}

/-- **`schedule`** goes on with the first task behind the current one that can run, and
marks it running; the ring is then in order behind that task. -/
theorem switchTask (h : RingOk k o) :
    ∃ a n b k', o = a ++ n :: b ∧ (k.tasks n).runnable = true ∧
      (∀ x ∈ a, (k.tasks x).runnable = false) ∧ switchTask k = some k' ∧ k'.current = n ∧
      (k'.tasks n).state = .running ∧ RingOk k' (b ++ a ++ [n]) := by
  obtain ⟨a, n, b, rfl, hrun, hwait⟩ := h.exists_runnable
  have hnext := h.nextTask hrun hwait
  have hmem : ∀ i, i ∈ b ++ a ++ [n] ↔ i ∈ a ++ n :: b := fun i => by
    simp only [List.mem_append, List.mem_cons, List.not_mem_nil]
    tauto
  by_cases hn : n = k.current
  · -- the idle task comes before every other current task
    have hidle : n = 0 := by
      obtain rfl : b = [] := LinkedCircle.eq_nil (hn ▸ h.circle)
      have hmem := h.idle
      rw [List.mem_append, List.mem_singleton] at hmem
      refine (hmem.resolve_left fun h₀ => ?_).symm
      exact Bool.false_ne_true ((hwait 0 h₀).symm.trans h.idleRuns)
    have hstate := h.idleCurrent (hn.symm.trans hidle)
    refine ⟨a, n, b, k, rfl, hrun, hwait, ?_, hn.symm, by rw [hidle]; exact hstate, ?_⟩
    · unfold LighthOS.switchTask
      rw [hnext]
      simp only [hn, if_true]
      rw [if_neg]
      rw [← hn, hidle, hstate]
      simp
    · refine ⟨hn ▸ h.circle.rotate, fun i hi => h.slot i ((hmem i).1 hi),
        fun i hi => h.named i ((hmem i).1 hi), fun i hi => (hmem i).2 (h.dead i hi), (hmem 0).2 h.idle,
        h.idleRuns, h.idleCurrent⟩
  · refine ⟨a, n, b, _, rfl, hrun, hwait, switchTask_eq hnext hn, rfl, by simp, ?_⟩
    refine ⟨h.circle.rotate, fun i hi => h.slot i ((hmem i).1 hi), fun i hi => h.named i ((hmem i).1 hi),
      fun i hi => (hmem i).2 (h.dead i ?_), (hmem 0).2 h.idle, ?_, fun h₀ => ?_⟩
    · simp only at hi
      split_ifs at hi
      exact hi
    · have hidle := h.idleRuns
      simp only [Task.runnable, decide_eq_true_iff] at hidle ⊢
      split_ifs
      · exact Or.inr rfl
      · exact Or.inl rfl
      · exact hidle
    · have h₀ : n = 0 := h₀
      simp [h₀]

/-- **`task_insert_ready`** puts a new task behind the current one. -/
theorem insert (h : RingOk k o) {t : ℕ} (ht : t ∉ o) (hslot : t < taskMax)
    (hname : (k.tasks t).name ≠ []) (hstate : (k.tasks t).state ≠ .dead) :
    RingOk (taskInsertReady k t) (t :: o) := by
  have hc : k.current ≠ t := by
    rintro rfl
    exact ht h.circle.self_mem
  have htasks := taskInsertReady_tasks k t
  have hne : ∀ i ∈ o, i ≠ t := by
    rintro i hi rfl
    exact ht hi
  refine ⟨h.circle.insert ht ?_ ?_ fun x hx hxc => ?_, fun i hi => ?_, fun i hi => ?_, fun i hi => ?_,
    List.mem_cons_of_mem _ h.idle, ?_, fun h₀ => ?_⟩
  · simp only [htasks, if_true]
  · simp [htasks, hc.symm]
  · simp [htasks, hxc, hne x hx]
  · rcases List.mem_cons.1 hi with rfl | hi
    · exact hslot
    · exact h.slot i hi
  · rw [htasks]
    rcases List.mem_cons.1 hi with rfl | hi
    · exact hname
    · exact h.named i hi
  · rw [htasks] at hi
    exact List.mem_cons_of_mem _ (h.dead i hi)
  · rw [htasks]
    exact h.idleRuns
  · rw [htasks]
    exact h.idleCurrent h₀

/-- **`list_remove`** takes a task other than the current one out of the ring. -/
theorem listRemove (h : RingOk k o) {v : ℕ} (hv : v ∈ o) (hc : v ≠ k.current) :
    ∃ tasks, listRemove k.tasks v = some tasks ∧
      LinkedCircle (fun i => (tasks i).next) k.current (o.erase v) ∧
      ∀ i, ∃ next, tasks i = { k.tasks i with next := next } := by
  obtain ⟨a, b, rfl⟩ := List.append_of_mem hv
  have hlen := h.length_le
  have hrot := h.circle.rotate
  have hnot : v ∉ b ++ a := fun hmem =>
    (List.nodup_append.1 hrot.nodup).2.2 v hmem v (List.mem_singleton_self v) rfl
  obtain ⟨d, p, hp⟩ : ∃ d p, k.current :: a = d ++ [p] := by
    rcases List.eq_nil_or_concat (k.current :: a) with h | ⟨d, p, h⟩
    · cases h
    · exact ⟨d, p, by rw [h, List.concat_eq_append]⟩
  have hlast : (v :: (b ++ a)).getLast? = some p := by
    obtain ⟨e, he⟩ : ∃ e, v :: b = e ++ [k.current] :=
      List.getLast?_eq_some_iff.1 (by simpa [List.getLast?_append] using h.circle.last)
    rw [← List.cons_append, he, List.append_assoc, List.singleton_append, hp, ← List.append_assoc,
      List.getLast?_concat]
  have hfind : findPrev k.tasks v (taskMax + 1) v = some p := by
    refine findPrev_eq hrot.links hnot hlast ?_
    simp only [List.length_append, List.length_cons] at hlen ⊢
    omega
  have hpv : p ≠ v := by
    rintro rfl
    have hmem : p ∈ k.current :: a := by rw [hp]; simp
    rcases List.mem_cons.1 hmem with he | hmem
    · exact hc he
    · exact hnot (List.mem_append_right _ hmem)
  refine ⟨_, by rw [LighthOS.listRemove, hfind]; rfl, ?_, fun i => ?_⟩
  · rw [List.erase_append_right _ fun hmem => hnot (List.mem_append_right _ hmem), List.erase_cons_head]
    refine h.circle.remove hc hp ?_ fun x hx hxp => ?_
    · simp [Function.update_apply, hpv]
    · have hxv : x ≠ v := by
        rintro rfl
        exact hnot (by simpa [or_comm] using hx)
      simp [Function.update_apply, hxp, hxv]
  · by_cases hiv : i = v
    · exact ⟨none, by simp [hiv, hpv.symm]⟩
    · by_cases hip : i = p
      · exact ⟨(k.tasks v).next, by simp [hip, hpv, Function.update_apply]⟩
      · exact ⟨(k.tasks i).next, by simp [hiv, hip, Function.update_apply]⟩

/-- A slot outside the ring gets a new task.  The slot may be that of a dead task which
has just been taken out of the ring. -/
theorem initTask (hc : LinkedCircle (fun i => (k.tasks i).next) k.current o)
    (hslot : ∀ i ∈ o, i < taskMax ∧ (k.tasks i).name ≠ []) {t : ℕ}
    (hd : ∀ i, i ≠ t → (k.tasks i).state = .dead → i ∈ o) (h₀ : 0 ∈ o)
    (hrun : (k.tasks 0).runnable = true) (hcur : k.current = 0 → (k.tasks 0).state = .running)
    (ht : t ∉ o) (name : List UInt8) (stackBase : ℕ) : RingOk (initTask k t name stackBase).2 o := by
  have hold : ∀ i, i ≠ t → (LighthOS.initTask k t name stackBase).2.tasks i = k.tasks i := fun i hi =>
    Function.update_of_ne hi _ _
  have hne : ∀ i ∈ o, i ≠ t := by
    rintro i hi rfl
    exact ht hi
  refine ⟨hc.congr fun i hi => ?_, fun i hi => (hslot i hi).1, fun i hi => ?_, fun i hi => ?_, h₀, ?_,
    fun h => ?_⟩
  · rw [hold i (hne i hi)]
  · rw [hold i (hne i hi)]
    exact (hslot i hi).2
  · by_cases hit : i = t
    · subst hit
      simp [LighthOS.initTask, Task.zero] at hi
    · rw [hold i hit] at hi
      exact hd i hit hi
  · rw [hold 0 (hne 0 h₀)]
    exact hrun
  · rw [hold 0 (hne 0 h₀)]
    exact hcur h

end RingOk

/-- The ring after `task_alloc` has taken a slot. -/
def afterAlloc (k : Kernel) (o : List ℕ) : List ℕ :=
  match deadSlot k with
  | some v => o.erase v
  | none => o

/-- **`task_alloc`**, for a program with a name and a current task that is not dead: the
task whose slot it reuses leaves the ring, the new task is not in it, and the other
tasks stay. -/
theorem RingOk.taskAlloc {k : Kernel} {o : List ℕ} (h : RingOk k o) {name : List UInt8}
    (hname : name ≠ []) (hcur : (k.tasks k.current).state ≠ .dead) (stackBase : ℕ) :
    ∃ r k', taskAlloc k name stackBase = some (r, k') ∧ RingOk k' (afterAlloc k o) ∧
      (∀ t, r = some t → t ∉ afterAlloc k o ∧ (t ≠ 0 ∧ t < taskMax) ∧ (k'.tasks t).name ≠ [] ∧
        (k'.tasks t).state = .ready) ∧
      ∀ u, (k.tasks u).name ≠ [] → (k.tasks u).state ≠ .dead → r ≠ some u ∧
        ∃ next, k'.tasks u = { k.tasks u with next := next } := by
  -- the new task in the slot `i`, where the other tasks are those of `k`
  have hinit : ∀ (k₁ : Kernel) (i : ℕ) (o₁ : List ℕ), i ∉ o₁ → i ≠ 0 ∧ i < taskMax →
      ((k.tasks i).name = [] ∨ (k.tasks i).state = .dead) →
      (∀ u, ∃ next, k₁.tasks u = { k.tasks u with next := next }) →
      (∀ t, (LighthOS.initTask k₁ i name stackBase).1 = some t → t ∉ o₁ ∧ (t ≠ 0 ∧ t < taskMax) ∧
        ((LighthOS.initTask k₁ i name stackBase).2.tasks t).name ≠ [] ∧
        ((LighthOS.initTask k₁ i name stackBase).2.tasks t).state = .ready) ∧
      ∀ u, (k.tasks u).name ≠ [] → (k.tasks u).state ≠ .dead →
        (LighthOS.initTask k₁ i name stackBase).1 ≠ some u ∧
        ∃ next, (LighthOS.initTask k₁ i name stackBase).2.tasks u = { k.tasks u with next := next } := by
    intro k₁ i o₁ hio hi hfree htasks
    have hslot : ∀ t, (LighthOS.initTask k₁ i name stackBase).1 = some t → t = i := fun t ht => by
      simp only [LighthOS.initTask] at ht
      split_ifs at ht
      exact (Option.some.inj ht).symm
    refine ⟨fun t ht => ?_, fun u hn hd => ?_⟩
    · rw [hslot t ht]
      refine ⟨hio, hi, ?_⟩
      simp only [LighthOS.initTask, Function.update_self, Task.zero]
      exact ⟨by simpa using hname, trivial⟩
    · have hui : u ≠ i := by
        rintro rfl
        exact hfree.elim hn hd
      refine ⟨fun ht => hui (hslot u ht), ?_⟩
      rw [show (LighthOS.initTask k₁ i name stackBase).2.tasks u = k₁.tasks u from
        Function.update_of_ne hui _ _]
      exact htasks u
  unfold LighthOS.taskAlloc afterAlloc
  cases hu : unusedSlot k with
  | some i =>
      obtain ⟨hi, hempty, -⟩ := unusedSlot_eq_some hu
      have hio : i ∉ o := fun hmem => h.named i hmem hempty
      simp only [deadSlot, hu, reduceCtorEq, if_false]
      obtain ⟨hnew, hold⟩ := hinit k i o hio hi (Or.inl hempty) fun u => ⟨_, rfl⟩
      exact ⟨_, _, rfl, RingOk.initTask h.circle (fun i hi => ⟨h.slot i hi, h.named i hi⟩)
        (fun i _ hd => h.dead i hd) h.idle h.idleRuns h.idleCurrent hio name stackBase, hnew, hold⟩
  | none =>
      cases hv : deadSlot k with
      | none => exact ⟨none, k, rfl, h, (fun t ht => by cases ht), fun u _ _ => ⟨by simp, _, rfl⟩⟩
      | some v =>
          obtain ⟨hv₀, -, hdead⟩ := deadSlot_eq_some hv
          have hvc : v ≠ k.current := by
            rintro rfl
            exact hcur hdead
          obtain ⟨tasks, hr, hcircle, htasks⟩ := h.listRemove (h.dead v hdead) hvc
          have hve : v ∉ o.erase v := h.circle.nodup.not_mem_erase
          simp only [hr, Option.map_some]
          obtain ⟨hnew, hold⟩ := hinit { k with tasks := tasks, vm := _ } v _ hve hv₀ (Or.inr hdead) htasks
          refine ⟨_, _, rfl, RingOk.initTask hcircle (fun i hi => ?_) (fun i hi hd => ?_) ?_ ?_ (fun h₀ => ?_)
            hve name stackBase, hnew, hold⟩
          · obtain ⟨next, he⟩ := htasks i
            have hi := List.mem_of_mem_erase hi
            simp only [he]
            exact ⟨h.slot i hi, h.named i hi⟩
          · obtain ⟨next, he⟩ := htasks i
            simp only [he] at hd
            exact (List.mem_erase_of_ne hi).2 (h.dead i hd)
          · exact (List.mem_erase_of_ne hv₀.1.symm).2 h.idle
          · obtain ⟨next, he⟩ := htasks 0
            simp only [he]
            exact h.idleRuns
          · obtain ⟨next, he⟩ := htasks 0
            simp only [he]
            exact h.idleCurrent h₀

/-- A task of the ring other than the idle task changes its state. -/
theorem RingOk.setState {k : Kernel} {o : List ℕ} (h : RingOk k o) {t : ℕ} (ht : t ∈ o) (h₀ : t ≠ 0)
    (st : TaskState) : RingOk (k.setTask t fun x => { x with state := st }) o := by
  have htasks : ∀ i, (k.setTask t fun x => { x with state := st }).tasks i
      = { k.tasks i with state := if i = t then st else (k.tasks i).state } := fun i => by
    rw [Kernel.setTask_tasks]
    by_cases hi : i = t
    · simp [hi]
    · simp [hi]
  refine ⟨h.circle.congr fun i _ => by rw [htasks], h.slot, fun i hi => ?_, fun i hi => ?_, h.idle, ?_,
    fun hc => ?_⟩
  · rw [htasks]
    exact h.named i hi
  · rw [htasks] at hi
    simp only at hi
    split_ifs at hi with hit
    · exact hit ▸ ht
    · exact h.dead i hi
  · simp only [htasks, h₀.symm, if_false]
    exact h.idleRuns
  · simp only [htasks, h₀.symm, if_false]
    exact h.idleCurrent hc

/-! ### Runs of the scheduler -/

/-- The kernel with the tasks that were put into the ring and not taken out since, and
those that `task_alloc` returned and that are not in the ring yet. -/
structure RingState where
  k : Kernel
  inserted : List ℕ
  fresh : List ℕ

/-- What happens to the ring. -/
inductive RingOp
  | alloc (name : List UInt8) (stackBase : ℕ)
  | insert (t : ℕ)
  | schedule
  | setState (t : ℕ) (st : TaskState)
  deriving DecidableEq

/-- One step.  `task_alloc` is called while the current task is not dead, a task is put
into the ring once after `task_alloc` returned it, and a signal changes the state of
a task of the ring other than the idle task.  Where `schedule` panics there is no
result. -/
def ringStep (s : RingState) : RingOp → Option RingState
  | .alloc name stackBase =>
      if (s.k.tasks s.k.current).state = .dead then none
      else (taskAlloc s.k name stackBase).map fun r =>
        ⟨r.2, afterAlloc s.k s.inserted, r.1.toList ++ s.fresh⟩
  | .insert t =>
      if t ∈ s.fresh then some ⟨taskInsertReady s.k t, t :: s.inserted, s.fresh.erase t⟩ else none
  | .schedule => (switchTask s.k).map fun k => { s with k := k }
  | .setState t st =>
      if t ∈ s.inserted ∧ t ≠ 0 ∧ st ≠ .running then
        some { s with k := s.k.setTask t fun x => { x with state := st } }
      else none

/-- The scheduler from boot on. -/
def ringSystem : System RingState RingOp := .ofFun (fun s => ∃ vm, s = ⟨kernelInit vm, [0], []⟩) ringStep

/-- A task gets a name. -/
def RingOp.Named : RingOp → Prop
  | .alloc name _ => name ≠ []
  | _ => True

instance (op : RingOp) : Decidable op.Named :=
  match op with
  | .alloc name _ => inferInstanceAs (Decidable (name ≠ []))
  | .insert _ | .schedule | .setState .. => inferInstanceAs (Decidable True)

/-- Whether a task is put into the ring. -/
def RingOp.isInsert : RingOp → Bool
  | .insert _ => true
  | _ => false

/-- The ring is intact and holds the tasks that were put into it. -/
structure RingInv (s : RingState) (o : List ℕ) : Prop where
  ring : RingOk s.k o
  members : o.Perm s.inserted
  fresh : ∀ t ∈ s.fresh, t ∉ o ∧ (t ≠ 0 ∧ t < taskMax) ∧ (s.k.tasks t).name ≠ [] ∧
    (s.k.tasks t).state ≠ .dead
  nodup : s.fresh.Nodup

/-- What is taken out of a list leaves the rest no farther from its start. -/
theorem idxOf_erase_le {t v : ℕ} (h : t ≠ v) (o : List ℕ) : (o.erase v).idxOf t ≤ o.idxOf t := by
  induction o with
  | nil => exact le_rfl
  | cons x o ih =>
      by_cases hxv : x = v
      · subst hxv
        rw [List.erase_cons_head, List.idxOf_cons_ne _ h.symm]
        omega
      · rw [List.erase_cons_tail (by simpa using hxv)]
        by_cases hxt : x = t
        · simp [hxt]
        · rw [List.idxOf_cons_ne _ hxt, List.idxOf_cons_ne _ hxt]
          omega

namespace RingInv

variable {s s' : RingState} {o : List ℕ}

theorem init (vm : Vm) : RingInv ⟨kernelInit vm, [0], []⟩ [0] :=
  ⟨.init vm, .refl _, (fun _ ht => by cases ht), List.nodup_nil⟩

/-- `task_alloc`: no task of the ring moves back. -/
theorem alloc (h : RingInv s o) {name : List UInt8} {stackBase : ℕ} (hname : name ≠ [])
    (hs : ringStep s (.alloc name stackBase) = some s') : RingInv s' (afterAlloc s.k o) := by
  unfold ringStep at hs
  simp only at hs
  split_ifs at hs with hcur
  obtain ⟨r, k', halloc, hring, hnew, hold⟩ := h.ring.taskAlloc hname hcur stackBase
  rw [halloc] at hs
  cases hs
  have hsub : ∀ t, t ∉ o → t ∉ afterAlloc s.k o := by
    intro t ht
    unfold afterAlloc
    split
    · exact fun hmem => ht (List.mem_of_mem_erase hmem)
    · exact ht
  refine ⟨hring, ?_, fun t ht => ?_, ?_⟩
  · unfold afterAlloc
    split
    · exact h.members.erase _
    · exact h.members
  · rcases List.mem_append.1 ht with ht | ht
    · obtain ⟨h₁, h₂, h₃, h₄⟩ := hnew t (Option.mem_toList.1 ht)
      exact ⟨h₁, h₂, h₃, by rw [h₄]; simp⟩
    · obtain ⟨h₁, h₂, h₃, h₄⟩ := h.fresh t ht
      obtain ⟨-, next, he⟩ := hold t h₃ h₄
      simp only [he]
      exact ⟨hsub t h₁, h₂, h₃, h₄⟩
  · refine List.nodup_append.2 ⟨by cases r <;> simp, h.nodup, fun t ht u hu => ?_⟩
    rintro rfl
    obtain ⟨-, -, h₃, h₄⟩ := h.fresh t hu
    exact (hold t h₃ h₄).1 (Option.mem_toList.1 ht)

theorem insert (h : RingInv s o) {t : ℕ} (hs : ringStep s (.insert t) = some s') :
    RingInv s' (t :: o) := by
  unfold ringStep at hs
  simp only at hs
  split_ifs at hs with ht
  cases hs
  obtain ⟨hto, ⟨-, hmax⟩, hname, hstate⟩ := h.fresh t ht
  refine ⟨h.ring.insert hto hmax hname hstate, h.members.cons t, fun u hu => ?_, h.nodup.erase t⟩
  obtain ⟨hut, hu⟩ := (h.nodup.mem_erase_iff).1 hu
  obtain ⟨huo, hslot, hname, hstate⟩ := h.fresh u hu
  rw [taskInsertReady_tasks, List.mem_cons, not_or]
  exact ⟨⟨hut, huo⟩, hslot, hname, hstate⟩

theorem setState (h : RingInv s o) {t : ℕ} {st : TaskState}
    (hs : ringStep s (.setState t st) = some s') : RingInv s' o := by
  unfold ringStep at hs
  simp only at hs
  split_ifs at hs with hc
  cases hs
  have hto : t ∈ o := h.members.mem_iff.2 hc.1
  refine ⟨h.ring.setState hto hc.2.1 st, h.members, fun u hu => ?_, h.nodup⟩
  obtain ⟨huo, hu⟩ := h.fresh u hu
  have hut : u ≠ t := by
    rintro rfl
    exact huo hto
  simp only [Kernel.setTask_tasks, hut, if_false]
  exact ⟨huo, hu⟩

/-- `schedule` runs the first task that can run; the others that can run move up. -/
theorem schedule (h : RingInv s o) (hs : ringStep s .schedule = some s') :
    ∃ o', RingInv s' o' ∧ ∀ t ∈ o, (s.k.tasks t).runnable = true →
      s'.k.current = t ∨ t ∈ o' ∧ o'.idxOf t + 1 ≤ o.idxOf t := by
  obtain ⟨a, n, b, k', rfl, hrun, hwait, hswitch, hcur, -, hring⟩ := h.ring.switchTask
  have hs' : s' = { s with k := k' } := by
    unfold ringStep at hs
    simp only [hswitch, Option.map_some, Option.some.injEq] at hs
    exact hs.symm
  subst hs'
  refine ⟨b ++ a ++ [n], ⟨hring, ?_, fun t ht => ?_, h.nodup⟩, fun t ht ht' => ?_⟩
  · refine List.Perm.trans ?_ h.members
    rw [List.append_assoc]
    exact List.perm_append_comm.trans (by simp)
  · obtain ⟨hto, hslot, hname, hstate⟩ := h.fresh t ht
    obtain ⟨st, he, hst⟩ := switchTask_tasks hswitch t
    simp only [he]
    refine ⟨fun hmem => hto ?_, hslot, hname, ?_⟩
    · simp only [List.mem_append, List.mem_cons, List.not_mem_nil, or_false] at hmem ⊢
      tauto
    · rcases hst with rfl | rfl | rfl
      · exact hstate
      · simp
      · simp
  · by_cases htn : t = n
    · exact Or.inl (hcur.trans htn.symm)
    have hta : t ∉ a := fun hmem => Bool.false_ne_true ((hwait t hmem).symm.trans ht')
    have htb : t ∈ b := by
      simp only [List.mem_append, List.mem_cons, hta, htn, false_or] at ht
      exact ht
    refine Or.inr ⟨by simp [htb], ?_⟩
    rw [List.append_assoc, List.idxOf_append_of_mem htb, List.idxOf_append_of_notMem hta,
      List.idxOf_cons_ne _ (Ne.symm htn)]
    omega

/-- **One step** keeps the ring.  A task that can run is selected, or comes nearer with
each call of `schedule` and moves back by one with each task put into the ring. -/
theorem step (h : RingInv s o) {op : RingOp} (hop : op.Named) (hs : ringStep s op = some s') :
    ∃ o', RingInv s' o' ∧ ∀ t ∈ o, (s.k.tasks t).runnable = true →
      op = .schedule ∧ s'.k.current = t ∨
        t ∈ o' ∧ o'.idxOf t + [op].count .schedule ≤ o.idxOf t + [op].countP RingOp.isInsert := by
  cases op with
  | alloc name stackBase =>
      refine ⟨_, h.alloc hop hs, fun t ht hrun => Or.inr ?_⟩
      unfold afterAlloc
      split
      · next v hv =>
          have hvt : t ≠ v := by
            rintro rfl
            rw [Task.runnable, (deadSlot_eq_some hv).2.2] at hrun
            cases hrun
          exact ⟨(List.mem_erase_of_ne hvt).2 ht, idxOf_erase_le hvt o⟩
      · exact ⟨ht, le_rfl⟩
  | insert u =>
      refine ⟨_, h.insert hs, fun t ht _ => Or.inr ⟨List.mem_cons_of_mem _ ht, ?_⟩⟩
      have hu : u ≠ t := by
        rintro rfl
        unfold ringStep at hs
        simp only at hs
        split_ifs at hs with hu
        exact (h.fresh u hu).1 ht
      rw [List.idxOf_cons_ne _ hu]
      rfl
  | schedule =>
      obtain ⟨o', h', hmove⟩ := h.schedule hs
      exact ⟨o', h', fun t ht hrun => (hmove t ht hrun).imp_left fun hcur => ⟨rfl, hcur⟩⟩
  | setState u st => exact ⟨o, h.setState hs, fun t ht _ => Or.inr ⟨ht, le_rfl⟩⟩

theorem of_reaches (h : (ringSystem.restrict fun _ op => op.Named).Reaches s) : ∃ o, RingInv s o := by
  refine h.invariant (I := fun s => ∃ o, RingInv s o) ?_ ?_
  · rintro _ ⟨vm, rfl⟩
    exact ⟨[0], .init vm⟩
  · rintro s₁ op s₂ ⟨o, ho⟩ ⟨hop, hs⟩
    obtain ⟨o', ho', -⟩ := ho.step hop hs
    exact ⟨o', ho'⟩

/-- **Every task gets its turn**: with enough calls of `schedule`, one for each task before
it and one for each task put into the ring meanwhile, a task that can run all the time
is selected. -/
theorem selected (h : RingInv s o) {ops : List RingOp} {t : ℕ} (ht : t ∈ o)
    (hops : ∀ op ∈ ops, op.Named) (hs : System.exec ringStep s ops = some s')
    (hrun : ∀ ops₁ s₁, ops₁ <+: ops → System.exec ringStep s ops₁ = some s₁ →
      (s₁.k.tasks t).runnable = true)
    (hcalls : o.idxOf t + ops.countP RingOp.isInsert < ops.count .schedule) :
    ∃ ops₁ s₁, ops₁ ++ [.schedule] <+: ops ∧
      System.exec ringStep s (ops₁ ++ [.schedule]) = some s₁ ∧ s₁.k.current = t := by
  induction ops generalizing s o with
  | nil => exact absurd hcalls (by simp)
  | cons op ops ih =>
      rw [System.exec, Option.bind_eq_some_iff] at hs
      obtain ⟨s₁, hstep, hs⟩ := hs
      obtain ⟨o₁, h₁, hmove⟩ := h.step (hops op List.mem_cons_self) hstep
      rcases hmove t ht (hrun [] s (List.nil_prefix) rfl) with ⟨rfl, hcur⟩ | ⟨ht₁, hle⟩
      · refine ⟨[], s₁, by simp, ?_, hcur⟩
        simp [System.exec, hstep]
      · rw [← List.singleton_append, List.count_append, List.countP_append] at hcalls
        obtain ⟨ops₂, s₂, hpre, hexec, hcur⟩ := ih h₁ ht₁ (fun x hx => hops x (List.mem_cons_of_mem _ hx)) hs
          (fun ops₂ s₂ hpre hexec => hrun (op :: ops₂) s₂ ((List.prefix_cons_inj op).2 hpre)
            (by rw [System.exec, hstep]; exact hexec)) (by omega)
        refine ⟨op :: ops₂, s₂, ?_, ?_, hcur⟩
        · rw [List.cons_append]
          exact (List.prefix_cons_inj op).2 hpre
        · rw [List.cons_append, System.exec, hstep]
          exact hexec

end RingInv

/-- **The ring of tasks.**  Where every task gets a name, the tasks that were put into the
ring and not taken out since form one circle with the idle task and the current one
in it, each once, and the idle task is ready or running.  `schedule` then does not
panic: up to the delivery of a signal, it switches to the first task behind the
current one that is ready or running and marks it running.  A task that stays ready
or running is selected within as many calls as there are tasks in the ring, and one
more for each task put into it meanwhile. -/
theorem ring_intact {s : RingState} (h : (ringSystem.restrict fun _ op => op.Named).Reaches s) :
    ∃ o, LinkedCircle (fun i => (s.k.tasks i).next) s.k.current o ∧ o.Perm s.inserted ∧ 0 ∈ o ∧
      (s.k.tasks 0).runnable = true ∧
      (∃ n k', o.find? (fun i => (s.k.tasks i).runnable) = some n ∧ switchTask s.k = some k' ∧
        k'.current = n ∧ (k'.tasks n).state = .running) ∧
      ∀ t ∈ o, ∀ ops s', (∀ op ∈ ops, op.Named) → System.exec ringStep s ops = some s' →
        (∀ ops₁ s₁, ops₁ <+: ops → System.exec ringStep s ops₁ = some s₁ →
          (s₁.k.tasks t).runnable = true) →
        o.length + ops.countP RingOp.isInsert ≤ ops.count .schedule →
        ∃ ops₁ s₁, ops₁ ++ [.schedule] <+: ops ∧
          System.exec ringStep s (ops₁ ++ [.schedule]) = some s₁ ∧ s₁.k.current = t := by
  obtain ⟨o, ho⟩ := RingInv.of_reaches h
  refine ⟨o, ho.ring.circle, ho.members, ho.ring.idle, ho.ring.idleRuns, ?_, ?_⟩
  · obtain ⟨a, n, b, k', rfl, hrun, hwait, hswitch, hcur, hstate, -⟩ := ho.ring.switchTask
    refine ⟨n, k', List.find?_eq_some_iff_append.2 ⟨hrun, a, b, rfl, fun x hx => ?_⟩, hswitch, hcur, hstate⟩
    simp [hwait x hx]
  · intro t ht ops s' hops hs hrun hcalls
    have hlt := List.idxOf_lt_length_of_mem ht
    exact ho.selected ht hops hs hrun (by omega)

/-- A scheduler after boot. -/
def ringBoot : RingState := ⟨kernelInit ⟨fun _ _ => 0, ⟨fun _ => true, 0, 0, 0⟩, 0⟩, [0], []⟩

theorem reaches_ringBoot : (ringSystem.restrict fun _ op => op.Named).Reaches ringBoot := .init ⟨_, rfl⟩

/-- The hypotheses of `ring_intact` are satisfiable: after one task was put into the ring,
two calls of `schedule` select the idle task. -/
theorem ring_intact_two : ∃ s, (ringSystem.restrict fun _ op => op.Named).Reaches s ∧
    s.inserted = [1, 0] ∧ ∃ ops₁ s₁, ops₁ ++ [.schedule] <+: [RingOp.schedule, .schedule] ∧
      System.exec ringStep s (ops₁ ++ [.schedule]) = some s₁ ∧ s₁.k.current = 0 := by
  have hrun : (System.exec (fun s op => if op.Named then ringStep s op else none) ringBoot
      [.alloc [97] 0x1000, .insert 1]).any (fun s => decide (s.inserted = [1, 0] ∧
        ∀ n < 3, (System.exec ringStep s ([RingOp.schedule, .schedule].take n)).any
          fun s₁ => (s₁.k.tasks 0).runnable)) = true := by decide +kernel
  obtain ⟨s, hs, hprop⟩ := (Option.any_eq_true _ _).1 hrun
  obtain ⟨hins, htakes⟩ := of_decide_eq_true hprop
  have hreach := System.ofFun_restrict_reaches reaches_ringBoot hs
  obtain ⟨o, -, hperm, h₀, -, -, hfair⟩ := ring_intact hreach
  obtain ⟨s', hs', -⟩ := (Option.any_eq_true _ _).1 (htakes 2 (by decide))
  have hlen : o.length = 2 := by rw [hperm.length_eq, hins]; rfl
  refine ⟨s, hreach, hins, hfair 0 h₀ _ s' (by simp [RingOp.Named]) hs' (fun ops₁ s₁ hpre hexec => ?_) ?_⟩
  · have hle := hpre.length_le
    rw [List.prefix_iff_eq_take.1 hpre] at hexec
    obtain ⟨s₂, hs₂, hr⟩ := (Option.any_eq_true _ _).1 (htakes ops₁.length (Nat.lt_succ_of_le hle))
    rw [hexec, Option.some.injEq] at hs₂
    exact hs₂ ▸ hr
  · rw [hlen]
    decide

/-- **Tasks without a name break the ring.**  The slot of a task without a name looks
unused, so that the next `task_alloc` takes the slot of a task of the ring, which is
then left without a successor.  And tasks that are put behind the current one keep a
task that is ready from being selected: here the ring has two tasks, and two calls of
`schedule` do not select the second. -/
theorem ring_broken_unnamed :
    (∃ s, ringSystem.Reaches s ∧
      ¬∃ o, LinkedCircle (fun i => (s.k.tasks i).next) s.k.current o ∧ o.Perm s.inserted) ∧
    ∃ (s : RingState) (ops : List RingOp), (ringSystem.restrict fun _ op => op.Named).Reaches s ∧
      (∀ op ∈ ops, op.Named) ∧ s.inserted = [1, 0] ∧ ops.count .schedule = 2 ∧
      ∀ n ≤ ops.length, ∃ s₁, System.exec ringStep s (ops.take n) = some s₁ ∧
        (s₁.k.tasks 1).runnable = true ∧ s₁.k.current ≠ 1 := by
  constructor
  · have hrun : (System.exec ringStep ringBoot [.alloc [] 0x1000, .insert 1, .alloc [] 0x1000]).any
        (fun s => decide ((s.k.tasks 1).next = none ∧ s.inserted = [1, 0])) = true := by decide +kernel
    obtain ⟨s, hs, hprop⟩ := (Option.any_eq_true _ _).1 hrun
    obtain ⟨hnext, hins⟩ := of_decide_eq_true hprop
    refine ⟨s, System.ofFun_reaches (.init ⟨_, rfl⟩) hs, ?_⟩
    rintro ⟨o, hcircle, hperm⟩
    obtain ⟨y, hy⟩ := hcircle.exists_next (x := 1) (hperm.mem_iff.2 (by simp [hins]))
    simp only [hnext] at hy
    cases hy
  · have hrun : (System.exec (fun s op => if op.Named then ringStep s op else none) ringBoot
        [.alloc [97] 0x1000, .insert 1, .alloc [97] 0x1000, .alloc [97] 0x1000]).any
        (fun s => decide (s.inserted = [1, 0] ∧ ∀ n < 5, (System.exec ringStep s
          ([RingOp.insert 2, .schedule, .insert 3, .schedule].take n)).any
            fun s₁ => decide ((s₁.k.tasks 1).runnable = true ∧ s₁.k.current ≠ 1))) = true := by
      decide +kernel
    obtain ⟨s, hs, hprop⟩ := (Option.any_eq_true _ _).1 hrun
    obtain ⟨hins, htakes⟩ := of_decide_eq_true hprop
    refine ⟨s, [.insert 2, .schedule, .insert 3, .schedule],
      System.ofFun_restrict_reaches reaches_ringBoot hs,
      by simp [RingOp.Named], hins, rfl, fun n hn => ?_⟩
    obtain ⟨s₁, hs₁, hprop₁⟩ := (Option.any_eq_true _ _).1 (htakes n (Nat.lt_succ_of_le hn))
    exact ⟨s₁, hs₁, of_decide_eq_true hprop₁⟩

end LighthOS
