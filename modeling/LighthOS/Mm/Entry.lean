/-
# Page-table entries

`src/mm/vmm.h` and the index extractors of `src/mm/vmm.c`.  An entry is a 64-bit
word: the physical address of a frame in bits 12..51 and flags around it.
Frames are named by their number, the physical address divided by `PAGE_SIZE`:
every table pointer of `vmm.c` is the HHDM address of a whole frame.
-/

import Mathlib.Data.Nat.Basic
import Mathlib.Tactic

namespace LighthOS

/-- `uint64_t`. -/
abbrev U64 := BitVec 64

/-- `PAGE_SIZE`. -/
abbrev pageSize : ℕ := 4096

/-- `VMM_FLAG_PRESENT`. -/
def vmmFlagPresent : U64 := 0x001#64
/-- `VMM_FLAG_WRITE`. -/
def vmmFlagWrite : U64 := 0x002#64
/-- `VMM_FLAG_USER`. -/
def vmmFlagUser : U64 := 0x004#64
/-- `VMM_FLAG_HUGE`: a 2 MiB or 1 GiB page. -/
def vmmFlagHuge : U64 := 0x080#64
/-- `VMM_FLAG_GLOBAL`. -/
def vmmFlagGlobal : U64 := 0x100#64
/-- `VMM_FLAG_NX`. -/
def vmmFlagNx : U64 := 0x8000000000000000#64
/-- `PTE_ADDR_MASK`: the physical address, bits 12..51. -/
def pteAddrMask : U64 := 0x000FFFFFFFFFF000#64
/-- The low twelve flag bits, `0xFFF`. -/
def lowFlagMask : U64 := 0xFFF#64

/-- `e & flag`, read as a truth value. -/
def hasFlag (e flag : U64) : Bool := e &&& flag != 0

/-- The physical address of a frame. -/
def frameAddr (f : ℕ) : U64 := BitVec.ofNat 64 (f * pageSize)

/-- The frame an entry points to: `e & PTE_ADDR_MASK`, as `entry_to_table` and
`pmm_free_frame` take it. -/
def entryFrame (e : U64) : ℕ := (e &&& pteAddrMask).toNat / pageSize

/-- `pml4_idx`. -/
def pml4Idx (va : ℕ) : ℕ := va / 2 ^ 39 % 512
/-- `pdpt_idx`. -/
def pdptIdx (va : ℕ) : ℕ := va / 2 ^ 30 % 512
/-- `pd_idx`. -/
def pdIdx (va : ℕ) : ℕ := va / 2 ^ 21 % 512
/-- `pt_idx`. -/
def ptIdx (va : ℕ) : ℕ := va / 2 ^ 12 % 512

theorem pml4Idx_lt (va : ℕ) : pml4Idx va < 512 := Nat.mod_lt _ (by norm_num)
theorem pdptIdx_lt (va : ℕ) : pdptIdx va < 512 := Nat.mod_lt _ (by norm_num)
theorem pdIdx_lt (va : ℕ) : pdIdx va < 512 := Nat.mod_lt _ (by norm_num)

/-! ### Flags of composed entries -/

/-- Bit `i` of `PTE_ADDR_MASK`. -/
theorem getLsbD_pteAddrMask : ∀ i < 64, pteAddrMask.getLsbD i = decide (12 ≤ i ∧ i < 52) := by
  decide

/-- The address bits of an entry are those of a page. -/
theorem toNat_mask_mod (e : U64) : (e &&& pteAddrMask).toNat % pageSize = 0 := by
  change (e &&& pteAddrMask).toNat % 2 ^ 12 = 0
  apply Nat.eq_of_testBit_eq
  intro i
  rw [Nat.testBit_mod_two_pow, Nat.zero_testBit, BitVec.testBit_toNat, BitVec.getLsbD_and]
  by_cases hi : i < 12
  · rw [getLsbD_pteAddrMask i (by omega)]
    simp [hi, show ¬12 ≤ i by omega]
  · simp [hi]

/-- The address bits of an entry and an offset in the page do not overlap. -/
theorem toNat_mask_or_offset (e : U64) (va : ℕ) :
    ((e &&& pteAddrMask) ||| BitVec.ofNat 64 (va % pageSize)).toNat
      = (e &&& pteAddrMask).toNat + va % pageSize := by
  have hoff : va % pageSize < 2 ^ 12 := Nat.mod_lt _ (by norm_num)
  obtain ⟨q, hq⟩ : 2 ^ 12 ∣ (e &&& pteAddrMask).toNat := Nat.dvd_of_mod_eq_zero (toNat_mask_mod e)
  rw [BitVec.toNat_or, BitVec.toNat_ofNat, Nat.mod_eq_of_lt (by omega), hq,
    Nat.two_pow_add_eq_or_of_lt hoff]

end LighthOS
