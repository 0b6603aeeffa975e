/-
# The word that the delivery of a signal pushes

`user_push_u64` of `src/kernel/process.c` stores a word below the stack pointer of the
interrupted program, for the kernel and by its own mapping of the memory: it looks up the
page of the first byte, asks for no permission, and lets a word that crosses the end of
the page run on into the next frame (`userPush_own_iff`).
-/

import LighthOS.Kernel.Signal
import LighthOS.Mm.HardwareWalk

namespace LighthOS

/-- The physical address at which `user_push_u64` stores, `rsp` lowered already. -/
def pushAddr (s : Vm) (pml4 rsp : ℕ) : ℕ :=
  vmmGetPhysicalIn s pml4 (pageDown rsp) + rsp % pageSize

/-- What `user_push_u64` does: the store at `pushAddr`, unless the page has no address. -/
theorem userPushZero_eq (s : Vm) (root rsp : ℕ) :
    userPushZero s root rsp = if root = 0 ∨ vmmGetPhysicalIn s root (pageDown rsp) = 0 then some (false, s)
      else if pushAddr s root rsp + 8 ≤ hhdmFrames * pageSize then
        some (true, s.store (pushAddr s root rsp) 8 fun _ => 0) else none := by
  have hoff : rsp - rsp / pageSize * pageSize = rsp % pageSize := by
    simp only [pageSize]
    omega
  unfold userPushZero putUser pushAddr Vm.storeLow pageDown
  simp only [hoff]
  split_ifs <;> simp_all

/-- A page that `vmm_get_physical_in` finds is mapped there for the processor. -/
theorem hardwarePhys_of_vmmGetPhysicalIn {s : Vm} {root va : ℕ} (hc : CanonicalVa va)
    (h : vmmGetPhysicalIn s root va ≠ 0) : hardwarePhys s root va = some (vmmGetPhysicalIn s root va) := by
  unfold vmmGetPhysicalIn walkLookup at *
  unfold hardwarePhys walkEntries
  simp only at *
  generalize s.mem root (pml4Idx va) = e4 at *
  generalize s.mem (entryFrame e4) (pdptIdx va) = e3 at *
  generalize s.mem (entryFrame e3) (pdIdx va) = e2 at *
  by_cases p4 : hasFlag e4 vmmFlagPresent = true
  swap
  · simp [p4] at h
  by_cases p3 : hasFlag e3 vmmFlagPresent = true ∧ ¬hasFlag e3 vmmFlagHuge = true
  swap
  · by_cases hp : hasFlag e3 vmmFlagPresent = true <;> simp_all
  by_cases p2 : hasFlag e2 vmmFlagPresent = true ∧ ¬hasFlag e2 vmmFlagHuge = true
  swap
  · by_cases hp : hasFlag e2 vmmFlagPresent = true <;> simp_all
  by_cases p1 : hasFlag (s.mem (entryFrame e2) (ptIdx va)) vmmFlagPresent = true
  · have hleaf := leafPhys_eq _ va p1
    rw [leafPhys, if_pos p1] at hleaf
    simp [p4, p3, p2, p1, hc, hleaf, walkSize]
  · simp [p4, p3, p2, p1] at h

/-- The eight addresses of the word. -/
def pushed (rsp k : ℕ) : ℕ := (rsp + k) % 2 ^ 64

/-- The bytes stored are those of the word below the stack pointer, in pages that the program may
write; otherwise nothing is stored. -/
def PushesOwn (s : Vm) (root rsp : ℕ) : Prop :=
  userPushZero s root rsp = some (false, s) ∨
    userPushZero s root rsp = some (true, s.store (pushAddr s root rsp) 8 fun _ => 0) ∧
      ∀ k < 8, HardwareAllows s root (pushed rsp k) true ∧
        hardwarePhys s root (pushed rsp k) = some (pushAddr s root rsp + k)

/-- What makes the store one that the program could have made: there is none, because the page
has no address; or the page of the first byte is writable for user code and in the memory
that the kernel maps, and where the word goes on in the next page, that one is too, and in
the next frame. -/
def PushPlain (s : Vm) (root rsp : ℕ) : Prop :=
  let page := pageDown rsp
  let next := (page + pageSize) % 2 ^ 64
  let phys := vmmGetPhysicalIn s root page
  root = 0 ∨ phys = 0 ∨ pushAddr s root rsp + 8 ≤ hhdmFrames * pageSize ∧ HardwareAllows s root page true ∧
    (rsp % pageSize + 8 ≤ pageSize ∨
      HardwareAllows s root next true ∧ hardwarePhys s root next = some (phys + pageSize))

/-- The addresses of the word, by their pages. -/
theorem pushed_page {rsp k : ℕ} (h : rsp < 2 ^ 64) (hk : k < 8) :
    (rsp % pageSize + k < pageSize ∧ pageDown (pushed rsp k) = pageDown rsp ∧
      pushed rsp k % pageSize = rsp % pageSize + k) ∨
    (pageSize ≤ rsp % pageSize + k ∧ pageDown (pushed rsp k) = (pageDown rsp + pageSize) % 2 ^ 64 ∧
      pushed rsp k % pageSize + pageSize = rsp % pageSize + k) := by
  simp only [pushed, pageDown, pageSize]
  omega

/-- **Signal delivery stores to the program's own writable stack** exactly where the condition
holds, for every stack pointer `rsp` of the program and every state of the page tables. -/
theorem userPush_own_iff (s : Vm) (root rsp : ℕ) :
    PushesOwn s root ((rsp + 2 ^ 64 - 8) % 2 ^ 64) ↔ PushPlain s root ((rsp + 2 ^ 64 - 8) % 2 ^ 64) := by
  generalize hw : (rsp + 2 ^ 64 - 8) % 2 ^ 64 = r
  have hr : r < 2 ^ 64 := by omega
  unfold PushesOwn PushPlain
  simp only [userPushZero_eq]
  by_cases h₀ : root = 0 ∨ vmmGetPhysicalIn s root (pageDown r) = 0
  · rw [if_pos h₀]
    exact ⟨fun _ => h₀.imp_right Or.inl, fun _ => Or.inl rfl⟩
  rw [if_neg h₀]
  push Not at h₀
  by_cases hlow : pushAddr s root r + 8 ≤ hhdmFrames * pageSize
  swap
  · simp [hlow, h₀.1, h₀.2]
  rw [if_pos hlow]
  simp only [h₀.1, h₀.2, hlow, Option.some.injEq, Prod.mk.injEq, Bool.true_eq_false, false_and, false_or,
    true_and]
  have hphys : CanonicalVa (pageDown r) →
      hardwarePhys s root (pageDown r) = some (vmmGetPhysicalIn s root (pageDown r)) :=
    fun hc => hardwarePhys_of_vmmGetPhysicalIn hc h₀.2
  constructor
  · intro h
    have hfirst : HardwareAllows s root (pageDown r) true := by
      have := (h 0 (by norm_num)).1
      rwa [pushed, Nat.add_zero, Nat.mod_eq_of_lt hr, ← hardwareAllows_pageDown] at this
    refine ⟨hfirst, ?_⟩
    rcases pushed_page hr (show 7 < 8 by norm_num) with ⟨hin, -⟩ | ⟨hout, hpage, hmod⟩
    · exact Or.inl (by omega)
    · obtain ⟨hallow, hp⟩ := h 7 (by norm_num)
      rw [← hardwareAllows_pageDown, hpage] at hallow
      rw [hardwarePhys_pageDown, hpage] at hp
      obtain ⟨x, hx, hsum⟩ := Option.map_eq_some_iff.1 hp
      refine Or.inr ⟨hallow, hx.trans (congrArg some ?_)⟩
      unfold pushAddr at hsum
      omega
  · rintro ⟨hfirst, hnext⟩ k hk
    rw [← hardwareAllows_pageDown, hardwarePhys_pageDown]
    rcases pushed_page hr hk with ⟨hin, hpage, hmod⟩ | ⟨hout, hpage, hmod⟩
    · rw [hpage, hmod, hphys hfirst.1]
      exact ⟨hfirst, by rw [Option.map_some, pushAddr, Nat.add_assoc]⟩
    · obtain ⟨hallow, hp⟩ := hnext.resolve_left (by omega)
      rw [hpage, hp]
      rw [Option.map_some, pushAddr]
      exact ⟨hallow, congrArg some (by omega)⟩

/-- A stack page that the program may only read, at frame 5. -/
def readOnlyStack : Vm where
  mem f _ := if f < 4 then frameAddr (f + 1) ||| 7#64 else frameAddr 5 ||| 5#64
  pmm := ⟨fun _ => true, 0, 0, 0⟩
  kernelPml4 := 1

/-- A word is pushed onto a page that the program may not write. -/
theorem push_ignores_readOnly : (userPushZero readOnlyStack 1 0x7FFFF8).map (·.1) = some true ∧
    (0x800000 + 2 ^ 64 - 8) % 2 ^ 64 = 0x7FFFF8 ∧ ¬HardwareAllows readOnlyStack 1 0x7FFFF8 true ∧
    ¬PushesOwn readOnlyStack 1 0x7FFFF8 := by
  have hrun : (userPushZero readOnlyStack 1 0x7FFFF8).map (·.1) = some true := by
    rw [userPushZero_eq, if_neg (by decide +kernel), if_pos (by decide +kernel)]
    rfl
  have hrefused : ¬HardwareAllows readOnlyStack 1 0x7FFFF8 true := by decide +kernel
  refine ⟨hrun, by norm_num, hrefused, ?_⟩
  rintro (h | ⟨-, h⟩)
  · rw [h] at hrun
    cases hrun
  · exact hrefused (h 0 (by norm_num)).1

end LighthOS
