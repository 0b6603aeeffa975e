/-
# Tasks

`src/kernel/task.c`: the task table with its ring of tasks, `task_alloc`, which
takes an unused slot or the slot of a dead task, and the search of `schedule` for
the next task to run.  Where the source follows a null pointer, or walks a ring
that it never leaves, there is no result.
-/

import LighthOS.Kernel.State

namespace LighthOS

/-- The loop of `list_remove`: the task before `victim`. -/
def findPrev (tasks : ℕ → Task) (victim : ℕ) : ℕ → ℕ → Option ℕ
  | 0, _ => none
  | fuel + 1, prev =>
      match (tasks prev).next with
      | none => none
      | some n => if n = victim then some prev else findPrev tasks victim fuel n

/-- `list_remove`. -/
def listRemove (tasks : ℕ → Task) (victim : ℕ) : Option (ℕ → Task) :=
  (findPrev tasks victim (taskMax + 1) victim).map fun prev =>
    let tasks := Function.update tasks prev { tasks prev with next := (tasks victim).next }
    Function.update tasks victim { tasks victim with next := none }

/-- The slots that `task_alloc` looks at: all but that of the idle task. -/
def taskSlots : List ℕ := List.range' 1 (taskMax - 1)

/-- The first unused slot. -/
def unusedSlot (k : Kernel) : Option ℕ :=
  taskSlots.find? fun i => (k.tasks i).name == [] && (k.tasks i).state == .ready

/-- The slot of a dead task that `task_alloc` takes where no slot is unused. -/
def deadSlot (k : Kernel) : Option ℕ :=
  if unusedSlot k = none then taskSlots.find? fun i => (k.tasks i).state == .dead else none

/-- The end of `task_alloc`: the slot `i` for a new task, which is not handed out
where there was no memory for its stack. -/
def initTask (k : Kernel) (i : ℕ) (name : List UInt8) (stackBase : ℕ) : Option ℕ × Kernel :=
  let t : Task := { Task.zero with
    id := k.nextId
    name := name.take 31
    -- the slot of a dead task that still runs has been cleared before this is read
    pml4 := if k.current = i then 0 else (k.tasks k.current).pml4
    stackBase := stackBase }
  (if stackBase = 0 then none else some i,
    { k with tasks := Function.update k.tasks i t, nextId := (k.nextId + 1) % 2 ^ 32 })

/-- `task_alloc`, with the address that `kmalloc` returns for the stack. -/
def taskAlloc (k : Kernel) (name : List UInt8) (stackBase : ℕ) : Option (Option ℕ × Kernel) :=
  match unusedSlot k with
  | some i => some (initTask k i name stackBase)
  | none =>
      match deadSlot k with
      | none => some (none, k)
      | some i => (listRemove k.tasks i).map fun tasks =>
          let vm := if (k.tasks i).pml4 ≠ 0 ∧ (k.tasks i).pml4 ≠ k.vm.kernelPml4 then
            vmmFreePml4 k.vm (k.tasks i).pml4 else k.vm
          initTask { k with tasks := tasks, vm := vm } i name stackBase

/-- `task_insert_ready`. -/
def taskInsertReady (k : Kernel) (t : ℕ) : Kernel :=
  (k.setTask t fun x => { x with next := (k.tasks k.current).next }).setTask k.current
    fun x => { x with next := some t }

/-- The loop of `schedule`. -/
def findRunnable (tasks : ℕ → Task) (start : ℕ) : ℕ → ℕ → Option ℕ
  | 0, _ => none
  | fuel + 1, next =>
      if (tasks next).state = .ready ∨ (tasks next).state = .running then some next
      else
        match (tasks next).next with
        | none => none
        | some n => if n = start then some n else findRunnable tasks start fuel n

/-- The task that `schedule` goes on with. -/
def nextTask (k : Kernel) : Option ℕ :=
  match (k.tasks k.current).next with
  | none => none
  | some start => findRunnable k.tasks start (taskMax + 1) start

/-- `schedule`, where scheduling is enabled, up to the delivery of signals. -/
def switchTask (k : Kernel) : Option Kernel :=
  match nextTask k with
  | none => none
  | some next =>
      if next = k.current then
        if (k.tasks k.current).state = .dead then none else some k
      else
        let k := if (k.tasks k.current).state = .running then
          k.setTask k.current fun t => { t with state := .ready } else k
        some { k.setTask next fun t => { t with state := .running } with current := next }

/-! ### The slots -/

theorem mem_taskSlots {t : ℕ} : t ∈ taskSlots ↔ t ≠ 0 ∧ t < taskMax := by
  simp only [taskSlots, List.mem_range', taskMax]
  constructor
  · rintro ⟨i, hi, rfl⟩
    omega
  · intro h
    exact ⟨t - 1, by omega, by omega⟩

theorem unusedSlot_eq_some {k : Kernel} {t : ℕ} (h : unusedSlot k = some t) :
    (t ≠ 0 ∧ t < taskMax) ∧ (k.tasks t).name = [] ∧ (k.tasks t).state = .ready := by
  have hp := List.find?_some h
  simp only [Bool.and_eq_true, beq_iff_eq] at hp
  exact ⟨mem_taskSlots.1 (List.mem_of_find?_eq_some h), hp⟩

theorem deadSlot_eq_some {k : Kernel} {t : ℕ} (h : deadSlot k = some t) :
    (t ≠ 0 ∧ t < taskMax) ∧ unusedSlot k = none ∧ (k.tasks t).state = .dead := by
  unfold deadSlot at h
  split_ifs at h with hu
  have hp := List.find?_some h
  rw [beq_iff_eq] at hp
  exact ⟨mem_taskSlots.1 (List.mem_of_find?_eq_some h), hu, hp⟩

/-! ### What the task functions leave alone -/

/-- What a function on tasks leaves alone. -/
structure OutsideTasks (k k' : Kernel) : Prop where
  procs : k'.procs = k.procs
  nextPid : k'.nextPid = k.nextPid
  gSpawning : k'.gSpawning = k.gSpawning
  schedulingEnabled : k'.schedulingEnabled = k.schedulingEnabled
  pipes : k'.pipes = k.pipes

theorem OutsideTasks.refl (k : Kernel) : OutsideTasks k k := ⟨rfl, rfl, rfl, rfl, rfl⟩

variable {k k' : Kernel} {name : List UInt8} {stackBase : ℕ} {r : Option ℕ}

theorem taskAlloc_outside (h : taskAlloc k name stackBase = some (r, k')) :
    OutsideTasks k k' ∧ k'.current = k.current := by
  unfold taskAlloc at h
  split at h
  · cases h
    exact ⟨⟨rfl, rfl, rfl, rfl, rfl⟩, rfl⟩
  · split at h
    · cases h
      exact ⟨.refl _, rfl⟩
    · obtain ⟨tasks, -, he⟩ := Option.map_eq_some_iff.1 h
      cases he
      exact ⟨⟨rfl, rfl, rfl, rfl, rfl⟩, rfl⟩

/-- **`task_insert_ready`** changes two successors. -/
theorem taskInsertReady_tasks (k : Kernel) (t i : ℕ) : (taskInsertReady k t).tasks i = { k.tasks i with
    next := if i = k.current then some t
      else if i = t then (k.tasks k.current).next else (k.tasks i).next } := by
  unfold taskInsertReady
  simp only [Kernel.setTask_tasks]
  by_cases hc : i = k.current
  · by_cases ht : k.current = t
    · simp [hc, ht]
    · simp [hc, ht]
  · by_cases ht : i = t
    · subst ht
      simp [hc]
    · simp [hc, ht]

theorem taskInsertReady_outside (k : Kernel) (t : ℕ) : OutsideTasks k (taskInsertReady k t) :=
  ⟨rfl, rfl, rfl, rfl, rfl⟩

theorem switchTask_outside (h : switchTask k = some k') :
    OutsideTasks k k' ∧ k'.vm = k.vm := by
  unfold switchTask at h
  split at h
  · cases h
  · split_ifs at h
    · cases h
      exact ⟨.refl _, rfl⟩
    all_goals
      cases h
      exact ⟨⟨rfl, rfl, rfl, rfl, rfl⟩, rfl⟩

/-- **`schedule`** changes the states of tasks, which it makes ready or running. -/
theorem switchTask_tasks (h : switchTask k = some k') (i : ℕ) :
    ∃ st, k'.tasks i = { k.tasks i with state := st } ∧
      (st = (k.tasks i).state ∨ st = .ready ∨ st = .running) := by
  have hset : ∀ (k₁ : Kernel) (t : ℕ) (st : TaskState),
      (k₁.setTask t fun x => { x with state := st }).tasks i
        = { k₁.tasks i with state := if i = t then st else (k₁.tasks i).state } := by
    intro k₁ t st
    rw [Kernel.setTask_tasks]
    by_cases hi : i = t
    · simp [hi]
    · simp [hi]
  unfold switchTask at h
  split at h
  · cases h
  · split_ifs at h
    · cases h
      exact ⟨_, rfl, Or.inl rfl⟩
    · cases h
      refine ⟨_, by simp only [hset]; rfl, ?_⟩
      split_ifs <;> simp
    · cases h
      refine ⟨_, by simp only [hset]; rfl, ?_⟩
      split_ifs <;> simp

/-- **The task that `schedule` goes on with is not dead**: it stops the machine before. -/
theorem switchTask_not_dead (h : switchTask k = some k') : (k'.tasks k'.current).state ≠ .dead := by
  unfold switchTask at h
  split at h
  · cases h
  · split_ifs at h with _ hdead
    · cases h
      exact hdead
    all_goals
      cases h
      simp

/-! ### The ring -/

theorem findPrev_spec {tasks : ℕ → Task} {victim fuel prev q : ℕ}
    (h : findPrev tasks victim fuel prev = some q) : (tasks q).next = some victim := by
  induction fuel generalizing prev with
  | zero => cases h
  | succ fuel ih =>
      rw [findPrev] at h
      split at h
      · cases h
      · next n hn =>
          split_ifs at h with hv
          · cases h
            rw [hn, hv]
          · exact ih h

/-- **`list_remove`** takes a task out of the ring: the task before it gets its
successor. -/
theorem listRemove_spec {tasks tasks' : ℕ → Task} {victim : ℕ}
    (h : listRemove tasks victim = some tasks') :
    ∃ prev, (tasks prev).next = some victim ∧ ∀ i, tasks' i = { tasks i with
      next := if i = victim then none else if i = prev then (tasks victim).next else (tasks i).next } := by
  obtain ⟨prev, hprev, rfl⟩ := Option.map_eq_some_iff.1 h
  refine ⟨prev, findPrev_spec hprev, fun i => ?_⟩
  by_cases hv : i = victim
  · subst hv
    by_cases hp : i = prev
    · subst hp; simp
    · simp [Function.update_of_ne hp]
  · by_cases hp : i = prev
    · subst hp; simp [hv]
    · simp [hv, hp]

/-- **`task_alloc`** changes no task but the new one, which is ready, and successors. -/
theorem taskAlloc_tasks (h : taskAlloc k name stackBase = some (r, k')) (u : ℕ) :
    (∃ next, k'.tasks u = { k.tasks u with next := next }) ∨
      u ≠ 0 ∧ (k'.tasks u).state = .ready ∧ (k'.tasks u).frame = .kernel := by
  have hinit : ∀ (k₁ : Kernel) (i : ℕ), i ≠ 0 → (∃ next, k₁.tasks u = { k.tasks u with next := next }) →
      (∃ next, (initTask k₁ i name stackBase).2.tasks u = { k.tasks u with next := next }) ∨
        u ≠ 0 ∧ ((initTask k₁ i name stackBase).2.tasks u).state = .ready ∧
          ((initTask k₁ i name stackBase).2.tasks u).frame = .kernel := by
    intro k₁ i hi hk₁
    by_cases hu : u = i
    · subst hu
      exact Or.inr ⟨hi, by simp [initTask, Task.zero]⟩
    · exact Or.inl (by simpa [initTask, hu] using hk₁)
  unfold taskAlloc at h
  split at h
  · next i hi =>
      obtain ⟨rfl, rfl⟩ := Prod.mk.inj (Option.some.inj h)
      exact hinit _ _ (unusedSlot_eq_some hi).1.1 ⟨_, rfl⟩
  · split at h
    · cases h
      exact Or.inl ⟨_, rfl⟩
    · next i hi =>
        obtain ⟨tasks, hr, h⟩ := Option.map_eq_some_iff.1 h
        obtain ⟨rfl, rfl⟩ := Prod.mk.inj h
        obtain ⟨prev, -, htasks⟩ := listRemove_spec hr
        exact hinit _ _ (deadSlot_eq_some hi).1.1 ⟨_, htasks u⟩

/-- The new task is not the idle task. -/
theorem taskAlloc_ne_zero {stackBase t : ℕ} (h : taskAlloc k name stackBase = some (some t, k')) : t ≠ 0 := by
  unfold taskAlloc initTask at h
  split at h
  · next i hi =>
      obtain ⟨hr, -⟩ := Prod.mk.inj (Option.some.inj h)
      split_ifs at hr
      exact Option.some.inj hr ▸ (unusedSlot_eq_some hi).1.1
  · split at h
    · cases h
    · next i hi =>
        obtain ⟨tasks, -, h⟩ := Option.map_eq_some_iff.1 h
        obtain ⟨hr, -⟩ := Prod.mk.inj h
        split_ifs at hr
        exact Option.some.inj hr ▸ (deadSlot_eq_some hi).1.1

end LighthOS
