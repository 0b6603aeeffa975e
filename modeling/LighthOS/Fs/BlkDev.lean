/-
# Block devices

`blkdev_t` of `src/fs/blkdev.h`: a device is read and written in sectors of 512 bytes,
through two operations that may fail.  Filesystem code is generic in the device.  The
device without errors is the array of its sectors (`Disk.dev`).
-/

import LighthOS.Mm.UserSpace

namespace LighthOS

/-- The bytes of a sector.  Filesystem code never looks behind the first 512. -/
abbrev Sector := ℕ → UInt8

/-- `memset(buf, 0, 512)`. -/
def zeroSector : Sector := fun _ => 0

/-- `memcpy(buf + off, src, n)`. -/
def Sector.put (buf : Sector) (off n : ℕ) (src : ℕ → UInt8) : Sector :=
  fun i => if off ≤ i ∧ i < off + n then src (i - off) else buf i

/-- The little-endian bytes of a number, as stores through an `uint8_t` cut them off. -/
def leBytes (v : ℕ) : ℕ → UInt8 := fun i => UInt8.ofNat (v / 256 ^ i)

/-- The operations of a `blkdev_t` with state `σ`: `read_sector` gives nothing where it
fails, `write_sector` says whether it succeeded. -/
structure BlkDev (σ : Type) where
  readSector : σ → ℕ → Option Sector × σ
  writeSector : σ → ℕ → Sector → Bool × σ

/-- The sectors of a device. -/
abbrev Disk := ℕ → Sector

/-- The device on which every access succeeds. -/
def Disk.dev : BlkDev Disk where
  readSector d lba := (some (d lba), d)
  writeSector d lba buf := (true, Function.update d lba buf)

/-! ### Bytes in a sector -/

namespace Sector

variable {buf : Sector} {off n : ℕ} {src : ℕ → UInt8}

theorem put_of_outside {i : ℕ} (h : i < off ∨ off + n ≤ i) : buf.put off n src i = buf i := by
  unfold put
  rw [if_neg (by omega)]

theorem put_of_inside {i : ℕ} (h : i < n) : buf.put off n src (off + i) = src i := by
  unfold put
  rw [if_pos (by omega), Nat.add_sub_cancel_left]

end Sector

/-- A field is read from its own bytes. -/
theorem readLe_congr {data data' : ℕ → UInt8} {off n : ℕ}
    (h : ∀ i < n, data' (off + i) = data (off + i)) : readLe data' off n = readLe data off n := by
  induction n generalizing off with
  | zero => rfl
  | succ n ih =>
      rw [readLe, readLe, ← Nat.add_zero off, h 0 (Nat.succ_pos n), Nat.add_zero,
        ih fun i hi => ?_]
      rw [Nat.add_assoc, Nat.add_comm 1]
      exact h (i + 1) (Nat.succ_lt_succ hi)

theorem readLe_leBytes (v k n : ℕ) : readLe (leBytes v) k n = v / 256 ^ k % 256 ^ n := by
  induction n generalizing k with
  | zero => rw [readLe, pow_zero, Nat.mod_one]
  | succ n ih =>
      have hbyte : (leBytes v k).toNat = v / 256 ^ k % 256 := by
        simp [leBytes]
      rw [readLe, ih, hbyte, pow_succ 256 k, ← Nat.div_div_eq_div_mul, pow_succ' 256 n,
        Nat.mod_mul]

/-- **What is stored in a field is read from it**, cut off to its size. -/
theorem readLe_put_self (buf : Sector) (off n v : ℕ) :
    readLe (buf.put off n (leBytes v)) off n = v % 256 ^ n := by
  have hshift : ∀ m k, (∀ i < m, buf.put off n (leBytes v) (off + k + i) = leBytes v (k + i)) →
      readLe (buf.put off n (leBytes v)) (off + k) m = readLe (leBytes v) k m := by
    intro m
    induction m with
    | zero => intro k _; rfl
    | succ m ih =>
        intro k h
        rw [readLe, readLe, show off + k = off + k + 0 from rfl, h 0 (Nat.succ_pos m),
          Nat.add_zero, Nat.add_zero, Nat.add_assoc, ih (k + 1) fun i hi => ?_]
        have := h (i + 1) (Nat.succ_lt_succ hi)
        rwa [show off + k + (i + 1) = off + (k + 1) + i by omega,
          show k + (i + 1) = k + 1 + i by omega] at this
  have h := hshift n 0 fun i hi => by
    rw [Nat.add_zero, Nat.zero_add, Sector.put_of_inside hi]
  rw [Nat.add_zero] at h
  rw [h, readLe_leBytes, pow_zero, Nat.div_one]

/-- A field is not changed by a store to other bytes. -/
theorem readLe_put_of_apart {buf : Sector} {off n off' n' : ℕ} {src : ℕ → UInt8}
    (h : off' + n' ≤ off ∨ off + n ≤ off') :
    readLe (buf.put off n src) off' n' = readLe buf off' n' :=
  readLe_congr fun i hi => Sector.put_of_outside (by omega)

end LighthOS
