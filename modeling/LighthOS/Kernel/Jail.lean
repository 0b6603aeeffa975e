/-
# Process trees under a chroot

`process_fork` copies the root of the parent, `SYS_EXECVE` and `SYS_CHDIR` keep the root of
the caller, and `SYS_CHROOT` only deepens it.  `SYS_SPAWN` takes a fresh slot of the process
table, whose root `process_alloc` has set to `"/"`: a program that a process under a chroot
spawns is not under the chroot (`spawn_leaves_root`).

Where only processes with root `"/"` spawn, every process stays below the roots that its
ancestors had when they created it (`chroot_inherited`).
-/

import LighthOS.Kernel.Path

namespace LighthOS

/-- A process, with the roots that its ancestors had when they created it or the ancestor
next to it. -/
structure Jailed where
  path : ProcPath
  bounds : List (List CString)
  deriving DecidableEq

/-- The root and the working directory that `process_alloc` sets. -/
def freshPath : ProcPath := ⟨['/'], ['/']⟩

/-- What processes do, and the directories that `vfs_stat` finds at that time. -/
inductive JailOp
  | chdir (i : ℕ) (path : CString) (isDir : CString → Bool)
  | chroot (i : ℕ) (path : CString) (isDir : CString → Bool)
  | execve (i : ℕ)
  | fork (i : ℕ)
  | spawn (i : ℕ)

/-- One operation; a call that fails changes nothing. -/
def jailStep (st : List Jailed) : JailOp → Option (List Jailed)
  | .chdir i path isDir =>
      st[i]?.map fun p => st.set i { p with path := (sysChdir p.path path isDir).getD p.path }
  | .chroot i path isDir =>
      st[i]?.map fun p => st.set i { p with path := (sysChroot p.path path isDir).getD p.path }
  | .execve i => st[i]?.map fun _ => st
  | .fork i => st[i]?.map fun p => st ++ [⟨p.path, components p.path.root :: p.bounds⟩]
  | .spawn i => st[i]?.map fun p => st ++ [⟨freshPath, components p.path.root :: p.bounds⟩]

/-- The calls of any number of processes, from those on that the kernel spawns. -/
def jailSystem : System (List Jailed) JailOp :=
  System.ofFun (fun st => ∀ p ∈ st, p = ⟨freshPath, []⟩) jailStep

/-- A `SYS_SPAWN` of a process that is under no chroot. -/
def JailOp.FreeSpawn (st : List Jailed) : JailOp → Prop
  | .spawn i => ∀ p ∈ st[i]?, components p.path.root = []
  | _ => True

/-- **A process is below the roots of its ancestors.** -/
structure Jailed.Inside (p : Jailed) : Prop where
  root : RootOk p.path.root
  below : ∀ b ∈ p.bounds, b <+: components p.path.root

namespace Jailed.Inside

variable {p : Jailed}

theorem fresh {bounds : List (List CString)} (h : ∀ b ∈ bounds, b = []) : Jailed.Inside ⟨freshPath, bounds⟩ where
  root := ⟨⟨[], rfl, by simp⟩, (by decide : freshPath.root.length < vfsMaxPath)⟩
  below b hb := by
    rw [h b hb]
    exact List.nil_prefix

/-- Every path is resolved below them. -/
theorem resolved (h : p.Inside) {path out : CString}
    (hout : processResolvePath p.path path vfsMaxPath = some out) {b : List CString} (hb : b ∈ p.bounds) :
    b <+: components out := by
  obtain ⟨comps, -, -, -, rfl⟩ := processResolvePath_spec h.root hout
  obtain ⟨-, -, hcomp⟩ := components_take h.root comps
  exact (h.below b hb).trans hcomp

theorem chdir (h : p.Inside) (path : CString) (isDir : CString → Bool) :
    Jailed.Inside { p with path := (sysChdir p.path path isDir).getD p.path } := by
  have hroot : ((sysChdir p.path path isDir).getD p.path).root = p.path.root := by
    cases hc : sysChdir p.path path isDir with
    | none => rfl
    | some p' =>
        obtain ⟨resolved, -, hc⟩ := Option.bind_eq_some_iff.1 hc
        simp only at hc
        split_ifs at hc
        · cases hc
          rfl
        · cases hc
          rfl
  refine ⟨?_, fun b hb => ?_⟩
  · simp only [hroot]
    exact h.root
  · simp only [hroot]
    exact h.below b hb

theorem chroot (h : p.Inside) (path : CString) (isDir : CString → Bool) :
    Jailed.Inside { p with path := (sysChroot p.path path isDir).getD p.path } := by
  cases hc : sysChroot p.path path isDir with
  | none => exact h
  | some p' =>
      obtain ⟨hroot, -, hdeeper⟩ := sysChroot_spec h.root hc
      exact ⟨hroot, fun b hb => (h.below b hb).trans hdeeper⟩

/-- A child has the root of its parent. -/
theorem fork (h : p.Inside) : Jailed.Inside ⟨p.path, components p.path.root :: p.bounds⟩ := by
  refine ⟨h.root, fun b hb => ?_⟩
  rcases List.mem_cons.1 hb with rfl | hb
  · exact List.prefix_rfl
  · exact h.below b hb

/-- A program spawned by a process that is under no chroot. -/
theorem spawn (h : p.Inside) (hfree : components p.path.root = []) :
    Jailed.Inside ⟨freshPath, components p.path.root :: p.bounds⟩ := by
  refine fresh fun b hb => ?_
  rcases List.mem_cons.1 hb with rfl | hb
  · exact hfree
  · have hb := h.below b hb
    rw [hfree] at hb
    exact List.prefix_nil.1 hb

end Jailed.Inside

/-- **One step** keeps the processes inside. -/
theorem Jailed.Inside.step {st st' : List Jailed} {op : JailOp} (h : ∀ p ∈ st, p.Inside)
    (hok : op.FreeSpawn st) (hs : jailStep st op = some st') : ∀ p ∈ st', p.Inside := by
  have hset : ∀ {i : ℕ} {p' : Jailed}, p'.Inside → ∀ q ∈ st.set i p', q.Inside := by
    intro i p' hp' q hq
    rcases List.mem_or_eq_of_mem_set hq with hq | rfl
    · exact h q hq
    · exact hp'
  have happend : ∀ {p' : Jailed}, p'.Inside → ∀ q ∈ st ++ [p'], q.Inside := by
    intro p' hp' q hq
    rcases List.mem_append.1 hq with hq | hq
    · exact h q hq
    · rw [List.mem_singleton.1 hq]
      exact hp'
  cases op with
  | chdir i path isDir =>
      obtain ⟨p, hp, rfl⟩ := Option.map_eq_some_iff.1 hs
      exact hset ((h p (List.mem_of_getElem? hp)).chdir path isDir)
  | chroot i path isDir =>
      obtain ⟨p, hp, rfl⟩ := Option.map_eq_some_iff.1 hs
      exact hset ((h p (List.mem_of_getElem? hp)).chroot path isDir)
  | execve i =>
      obtain ⟨p, hp, rfl⟩ := Option.map_eq_some_iff.1 hs
      exact h
  | fork i =>
      obtain ⟨p, hp, rfl⟩ := Option.map_eq_some_iff.1 hs
      exact happend (h p (List.mem_of_getElem? hp)).fork
  | spawn i =>
      obtain ⟨p, hp, rfl⟩ := Option.map_eq_some_iff.1 hs
      exact happend ((h p (List.mem_of_getElem? hp)).spawn (hok p hp))

/-- **The root is inherited.**  In every run in which only processes with root `"/"` call
`SYS_SPAWN`, every process is below the roots that its ancestors had when they created it
or the ancestor next to it, and resolves no path outside them. -/
theorem chroot_inherited {st : List Jailed}
    (h : (jailSystem.restrict fun st op => op.FreeSpawn st).Reaches st) {p : Jailed} (hp : p ∈ st)
    {b : List CString} (hb : b ∈ p.bounds) : b <+: components p.path.root ∧
      ∀ path out, processResolvePath p.path path vfsMaxPath = some out → b <+: components out := by
  have hinside : ∀ p ∈ st, p.Inside := by
    refine h.invariant (I := fun st : List Jailed => ∀ p ∈ st, p.Inside) (fun st h₀ p hp => ?_)
      fun st op st' hI ⟨hok, hs⟩ => Jailed.Inside.step hI hok hs
    rw [h₀ p hp]
    exact .fresh fun b hb => by cases hb
  exact ⟨(hinside p hp).below b hb, fun path out hout => (hinside p hp).resolved hout hb⟩

/-- The root and the bounds that the runs below come to. -/
def jailRoot : List CString := [['j', 'a', 'i', 'l']]

/-- The hypotheses of `chroot_inherited` are satisfiable: a process is spawned, changes its
root and forks. -/
theorem chroot_inherited_fork : ∃ (st : List Jailed) (p : Jailed),
    (jailSystem.restrict fun st op => op.FreeSpawn st).Reaches st ∧ p ∈ st ∧
    p = ⟨⟨"/jail".toList, ['/']⟩, [jailRoot, []]⟩ ∧ jailRoot <+: components p.path.root ∧
    ∀ path out, processResolvePath p.path path vfsMaxPath = some out → jailRoot <+: components out := by
  have hreach : (jailSystem.restrict fun st op => op.FreeSpawn st).Reaches
      [⟨freshPath, []⟩, ⟨⟨"/jail".toList, ['/']⟩, [[]]⟩, ⟨⟨"/jail".toList, ['/']⟩, [jailRoot, []]⟩] := by
    have h₀ : (jailSystem.restrict fun st op => op.FreeSpawn st).Reaches [⟨freshPath, []⟩] :=
      .init fun p hp => List.mem_singleton.1 hp
    have h₁ : (jailSystem.restrict fun st op => op.FreeSpawn st).Reaches
        [⟨freshPath, []⟩, ⟨freshPath, [[]]⟩] := by
      refine h₀.step (a := .spawn 0) ⟨fun p hp => ?_, show jailStep _ _ = _ by decide⟩
      cases Option.mem_def.1 hp
      decide
    have h₂ : (jailSystem.restrict fun st op => op.FreeSpawn st).Reaches
        [⟨freshPath, []⟩, ⟨⟨"/jail".toList, ['/']⟩, [[]]⟩] :=
      h₁.step (a := .chroot 1 "jail".toList fun _ => true)
        ⟨trivial, show jailStep _ _ = _ by decide +kernel⟩
    exact h₂.step (a := .fork 1) ⟨trivial, show jailStep _ _ = _ by decide +kernel⟩
  have hmem : (⟨⟨"/jail".toList, ['/']⟩, [jailRoot, []]⟩ : Jailed) ∈
      ([⟨freshPath, []⟩, ⟨⟨"/jail".toList, ['/']⟩, [[]]⟩, ⟨⟨"/jail".toList, ['/']⟩, [jailRoot, []]⟩] :
        List Jailed) := by simp
  exact ⟨_, _, hreach, hmem, rfl, chroot_inherited hreach hmem List.mem_cons_self⟩

/-- **A spawned program leaves the chroot.**  A process changes its root to `"/jail"` and
spawns a program: its root is `"/"`, and it resolves `"/etc"` to `"/etc"`. -/
theorem spawn_leaves_root : ∃ (st : List Jailed) (p : Jailed), jailSystem.Reaches st ∧ p ∈ st ∧
    jailRoot ∈ p.bounds ∧ ¬jailRoot <+: components p.path.root ∧
    processResolvePath p.path "/etc".toList vfsMaxPath = some "/etc".toList := by
  have hrun : System.exec jailStep [⟨freshPath, []⟩] [.chroot 0 "/jail".toList fun _ => true, .spawn 0]
      = some [⟨⟨"/jail".toList, ['/']⟩, []⟩, ⟨freshPath, [jailRoot]⟩] := by decide +kernel
  refine ⟨_, ⟨freshPath, [jailRoot]⟩, System.ofFun_reaches (.init fun p hp => List.mem_singleton.1 hp) hrun,
    by simp, by simp, by decide +kernel, by decide +kernel⟩

end LighthOS
