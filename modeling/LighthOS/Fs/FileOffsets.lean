/-
# The offset of a descriptor

`fd_read`, `fd_write` and `fd_lseek` of `src/kernel/process.c` on a descriptor of a regular
file.  The offset is a `uint64_t`, and `off_t` is signed: `fd_lseek` stores whatever the sum
is, also where it returns it as a negative number (`lseek_stores_negative`).  In runs in
which no sum leaves `0 .. 2 ^ 63 - 1`, offsets are valid and calls move them by what they
return (`file_offsets_valid`).  The file systems may do anything between the calls.
-/

import LighthOS.Fs.Vfs
import LighthOS.Kernel.State

namespace LighthOS

variable {σ : Type} (env : FsEnv σ) (fuel : ℕ)

/-- `(off_t)u`. -/
def offT (u : ℕ) : ℤ := if u < 2 ^ 63 then u else u - 2 ^ 64

/-- `fd_read` on a file: what it returns, and the entry. -/
def fdRead (e : FdEntry) (n : ℕ) (s : FsState σ) : Option (ℤ × FdEntry × FsState σ) :=
  (vfsRead env (ofBytes e.path) n (offT e.offset) s).map fun (out, s) =>
    match out with
    | none => (-1, e, s)
    | some bytes => (bytes.length,
        if 0 < bytes.length then { e with offset := u64 (e.offset + bytes.length) } else e, s)

/-- `fd_write` on a file. -/
def fdWrite (e : FdEntry) (buf : Bytes) (s : FsState σ) : Option (ℤ × FdEntry × FsState σ) :=
  (vfsWrite env fuel (ofBytes e.path) buf (offT e.offset) s).map fun (r, s) =>
    (r, if 0 < r then { e with offset := u64 (e.offset + r.toNat) } else e, s)

/-- `fd_lseek` on a file. -/
def fdLseek (e : FdEntry) (off whence : ℤ) (s : FsState σ) : Option (ℤ × FdEntry × FsState σ) :=
  let seek (base : ℕ) (s : FsState σ) :=
    let new := u64 (base + (off % 2 ^ 64).toNat)
    (offT new, { e with offset := new }, s)
  if whence = 0 then some (seek 0 s)
  else if whence = 1 then some (seek e.offset s)
  else if whence = 2 then (vfsStat env (ofBytes e.path) s).map fun (st, s) =>
    match st with
    | none => (-1, e, s)
    | some st => seek st.size s
  else some (-1, e, s)

/-! ### What the file systems return -/

section Counts

variable {dev : BlkDev σ} {G : FatState} {size : ℕ}

theorem readClusters_length {rounds c off : ℕ} {out out' : Bytes} {m m' : FatMem σ} (hout : out.length ≤ size)
    (h : readClusters dev G size rounds c off out m = some (out', m')) : out'.length ≤ size := by
  induction rounds generalizing c off out m with
  | zero =>
      cases h
      exact hout
  | succ rounds ih =>
      rw [readClusters] at h
      split_ifs at h
      · cases h
        exact hout
      obtain ⟨⟨b, ok, out₁, m₁⟩, hrun, h⟩ := Option.bind_eq_some_iff.1 h
      have hslice : out₁.length ≤ size := by
        refine Loop.run_inv (I := fun acc => acc.2.1.length ≤ size) (fun s _ acc b acc' hacc hs => ?_) hout hrun
        unfold readSlice at hs
        simp only at hs
        split_ifs at hs
        · cases hs; exact hacc
        · cases hs; exact hacc
        · split at hs
          · cases hs; exact hacc
          · cases hs
            simp only [List.length_append, List.length_map, List.length_range]
            omega
      cases ok with
      | true => exact ih hslice h
      | false =>
          cases h
          exact hslice

theorem writeClusters_le {buf : ℕ → UInt8} {rounds c off done done' : ℕ} {ok : Bool} {m m' : FatMem σ}
    (hdone : done ≤ size) (h : writeClusters dev G fuel buf size rounds c off done m = some (ok, done', m')) :
    done' ≤ size := by
  induction rounds generalizing c off done m with
  | zero =>
      cases h
      exact hdone
  | succ rounds ih =>
      rw [writeClusters] at h
      split_ifs at h
      · cases h
        exact hdone
      obtain ⟨⟨b, ok₁, done₁, m₁⟩, hrun, h⟩ := Option.bind_eq_some_iff.1 h
      have hslice : done₁ ≤ size := by
        refine Loop.run_inv (I := fun acc => acc.2.1 ≤ size) (fun s _ acc b acc' hacc hs => ?_) hdone hrun
        unfold writeSlice at hs
        simp only at hs
        split_ifs at hs
        · cases hs; exact hacc
        · cases hs; exact hacc
        · split at hs
          · cases hs; exact hacc
          · split at hs
            · cases hs; exact hacc
            · cases hs
              simp only
              omega
      simp only at h
      split_ifs at h
      · cases h; exact hslice
      · exact ih hslice h
      · exact ih hslice h
      · obtain ⟨⟨next, m₂⟩, -, h⟩ := Option.bind_eq_some_iff.1 h
        simp only at h
        split_ifs at h
        · cases h; exact hslice
        · exact ih hslice h

end Counts

section Ops

variable {env fuel} {s s' : FsState σ} {node : VfsNode} {offset n : ℕ}

/-- A read returns no more than was asked for, where the FAT driver gets an offset of 32 bits. -/
theorem opRead_length {out : Bytes} (hrange : offset + n < 2 ^ 63)
    (hfat : ∀ vol nd, node = .fat vol nd → offset < 2 ^ 32)
    (hop : opRead env node n offset s = some (some out, s')) : out.length ≤ n := by
  cases node with
  | ram i =>
      obtain ⟨h, -⟩ := Prod.mk.inj (Option.some.inj hop)
      unfold RamFs.ramfsRead at h
      simp only at h
      split_ifs at h
      · cases h; exact Nat.zero_le _
      · cases h
        rw [bytesAt, List.length_map, List.length_range]
        exact Nat.min_le_left _ _
  | proc kind pid =>
      obtain ⟨h, -⟩ := Prod.mk.inj (Option.some.inj hop)
      unfold procfsRead at h
      split_ifs at h
      split at h
      · cases h
      · cases h
      · cases h
        exact List.length_take_le _ _
  | fat vol nd =>
      obtain ⟨⟨out', m'⟩, h, he⟩ := Option.map_eq_some_iff.1 hop
      obtain ⟨rfl, -⟩ := Prod.mk.inj he
      have hoff := hfat vol nd rfl
      have hcast : ((offset : ℤ) % 2 ^ 64).toNat = offset := by omega
      rw [hcast] at h
      unfold fatRead at h
      by_cases htype : nd.type ≠ .file
      · rw [if_pos htype] at h
        cases h
      rw [if_neg htype] at h
      by_cases hend : nd.size ≤ u32 offset
      · rw [if_pos hend] at h
        cases h
        exact Nat.zero_le _
      rw [if_neg hend] at h
      simp only at h
      generalize hsize : (if nd.size < u64 (offset + n) then u64 (nd.size + 2 ^ 64 - offset) else n) = size at h
      have hle : size ≤ n := by
        rw [u32, Nat.mod_eq_of_lt hoff] at hend
        rw [u64, Nat.mod_eq_of_lt (by omega)] at hsize
        split_ifs at hsize
        · rw [u64] at hsize
          omega
        · exact hsize.ge
      split_ifs at h
      · cases h
        exact Nat.zero_le _
      obtain ⟨⟨c, m₁⟩, -, h⟩ := Option.bind_eq_some_iff.1 h
      simp only at h
      split_ifs at h
      · cases h
        exact Nat.zero_le _
      obtain ⟨⟨out₁, m₂⟩, hread, h⟩ := Option.bind_eq_some_iff.1 h
      cases h
      exact (readClusters_length (Nat.zero_le _) hread).trans hle

theorem opWrite_le {buf : Bytes} {offset r : ℤ} (hop : opWrite env fuel node buf offset s = some (r, s')) :
    r ≤ buf.length := by
  cases node with
  | ram i =>
      obtain ⟨⟨r', ram⟩, h, he⟩ := Option.map_eq_some_iff.1 hop
      obtain ⟨rfl, -⟩ := Prod.mk.inj he
      unfold RamFs.ramfsWrite at h
      simp only at h
      split_ifs at h
      · cases h; omega
      · cases h; omega
      · cases h; omega
      · obtain ⟨⟨ok, ram'⟩, -, h⟩ := Option.map_eq_some_iff.1 h
        cases ok <;> cases h <;> omega
  | proc kind pid =>
      cases hop
      omega
  | fat vol nd =>
      obtain ⟨⟨r', nd', fat⟩, h, he⟩ := Option.map_eq_some_iff.1 hop
      obtain ⟨rfl, -⟩ := Prod.mk.inj he
      unfold fatWrite at h
      split_ifs at h
      · cases h; omega
      obtain ⟨⟨c, m₁⟩, -, h⟩ := Option.bind_eq_some_iff.1 h
      simp only at h
      split_ifs at h
      · cases h; omega
      obtain ⟨⟨c', m₂⟩, -, h⟩ := Option.bind_eq_some_iff.1 h
      simp only at h
      split_ifs at h
      · cases h; omega
      obtain ⟨⟨ok, done, m₃⟩, hwrite, h⟩ := Option.bind_eq_some_iff.1 h
      have hdone := writeClusters_le fuel (Nat.zero_le _) hwrite
      simp only at h
      split_ifs at h
      · cases h; omega
      obtain ⟨m₄, -, h⟩ := Option.bind_eq_some_iff.1 h
      cases h
      omega

end Ops

/-! ### The calls on one descriptor -/

/-- A descriptor of a file, and the file systems. -/
structure OpenFile (σ : Type) where
  entry : FdEntry
  fs : FsState σ

/-- The calls. -/
inductive FileCall
  | lseek (off whence : ℤ)
  | read (n : ℕ)
  | write (buf : Bytes)

/-- One call: what it returns, and what it leaves. -/
def fileCall (x : OpenFile σ) (call : FileCall) : Option (ℤ × OpenFile σ) :=
  (match call with
  | .lseek off whence => fdLseek env x.entry off whence x.fs
  | .read n => fdRead env x.entry n x.fs
  | .write buf => fdWrite env fuel x.entry buf x.fs).map fun (r, e, s) => (r, ⟨e, s⟩)

/-- A descriptor between calls: the file systems may change in any way (`none`). -/
def fileSystem : System (OpenFile σ) (Option FileCall) where
  init x := x.entry.type = .file ∧ x.entry.offset < 2 ^ 32
  step x call x' := match call with
    | none => x'.entry = x.entry
    | some call => ∃ r, fileCall env fuel x call = some (r, x')

/-- The sums stay in `0 .. 2 ^ 63 - 1`.  `fat_read` cuts its offset to 32 bits and, beyond
them, copies more than it is asked to. -/
def FileCall.Fits (x : OpenFile σ) : FileCall → Prop
  | .lseek off whence =>
      (whence = 0 → 0 ≤ off ∧ off < 2 ^ 63) ∧
      (whence = 1 → 0 ≤ x.entry.offset + off ∧ x.entry.offset + off < 2 ^ 63) ∧
      (whence = 2 → ∀ node s, vfsResolve env (ofBytes x.entry.path) x.fs = some (some node, s) →
        0 ≤ (opStat node s).size + off ∧ (opStat node s).size + off < 2 ^ 63)
  | .read n => x.entry.offset + n < 2 ^ 63 ∧ OnFat x
  | .write buf => x.entry.offset + buf.length < 2 ^ 63
where
  /-- On FAT, the offset has 32 bits. -/
  OnFat (x : OpenFile σ) : Prop :=
    ∀ vol nd s, vfsResolve env (ofBytes x.entry.path) x.fs = some (some (.fat vol nd), s) →
      x.entry.offset < 2 ^ 32

/-- What a call may do with the offset. -/
structure KeepsOffset (x : OpenFile σ) (call : FileCall) (r : ℤ) (x' : OpenFile σ) : Prop where
  valid : x'.entry.offset < 2 ^ 63
  failed : r < 0 → x'.entry.offset = x.entry.offset
  sought : 0 ≤ r → (∃ off whence, call = .lseek off whence) → (x'.entry.offset : ℤ) = r
  moved : 0 ≤ r → (¬ ∃ off whence, call = .lseek off whence) →
    (x'.entry.offset : ℤ) = x.entry.offset + r

section Laws

variable {env fuel} {x x' : OpenFile σ} {r : ℤ}

theorem offT_of_lt {u : ℕ} (h : u < 2 ^ 63) : offT u = u := if_pos h

/-- A sum that is in range is stored and returned as it is. -/
theorem seek_exact {base : ℕ} {off : ℤ} (h₀ : 0 ≤ base + off) (h₁ : base + off < 2 ^ 63) :
    (u64 (base + (off % 2 ^ 64).toNat) : ℤ) = base + off := by
  rw [u64]
  omega

theorem fdLseek_keepsOffset {off whence : ℤ} (hx : x.entry.offset < 2 ^ 63)
    (hfits : (FileCall.lseek off whence).Fits env x)
    (hcall : fileCall env fuel x (.lseek off whence) = some (r, x')) :
    KeepsOffset x (.lseek off whence) r x' := by
  -- where the sum is in range, it is what is stored and what is returned
  have hseek : ∀ {base : ℕ} {s : FsState σ}, 0 ≤ base + off → base + off < 2 ^ 63 →
      KeepsOffset x (.lseek off whence) (offT (u64 (base + (off % 2 ^ 64).toNat)))
        ⟨{ x.entry with offset := u64 (base + (off % 2 ^ 64).toNat) }, s⟩ := by
    intro base s h₀ h₁
    have hsum := seek_exact h₀ h₁
    have hlt : u64 (base + (off % 2 ^ 64).toNat) < 2 ^ 63 := by omega
    rw [offT_of_lt hlt]
    exact ⟨hlt, fun h => by omega, fun _ _ => rfl, fun _ h => (h ⟨_, _, rfl⟩).elim⟩
  have hsame : ∀ s : FsState σ, KeepsOffset x (.lseek off whence) (-1) ⟨x.entry, s⟩ := fun s =>
    ⟨hx, fun _ => rfl, fun h => by omega, fun h => by omega⟩
  obtain ⟨hset, hcur, hend⟩ := hfits
  obtain ⟨⟨r', e, s⟩, hfd, he⟩ := Option.map_eq_some_iff.1 hcall
  cases he
  simp only [fdLseek] at hfd
  split_ifs at hfd with h0 h1 h2
  · cases hfd
    exact hseek (by simpa using (hset h0).1) (by simpa using (hset h0).2)
  · cases hfd
    exact hseek (hcur h1).1 (hcur h1).2
  · rw [vfsStat, Option.map_map] at hfd
    obtain ⟨⟨node, s₁⟩, hnode, hfd⟩ := Option.map_eq_some_iff.1 hfd
    cases node with
    | none =>
        cases hfd
        exact hsame s₁
    | some node =>
        cases hfd
        exact hseek (hend h2 _ _ hnode).1 (hend h2 _ _ hnode).2
  · cases hfd
    exact hsame _

theorem fdRead_keepsOffset {n : ℕ} (hfits : (FileCall.read n).Fits env x)
    (hcall : fileCall env fuel x (.read n) = some (r, x')) : KeepsOffset x (.read n) r x' := by
  obtain ⟨hrange, hfat⟩ := hfits
  obtain ⟨⟨r', e, s⟩, hfd, he⟩ := Option.map_eq_some_iff.1 hcall
  cases he
  obtain ⟨⟨out, s₁⟩, hread, he⟩ := Option.map_eq_some_iff.1 hfd
  obtain ⟨⟨node, s₂⟩, hnode, h⟩ := Option.bind_eq_some_iff.1 hread
  rw [offT_of_lt (by omega)] at h
  have hlen : ∀ bytes, out = some bytes → bytes.length ≤ n := by
    rintro bytes rfl
    cases node with
    | none => cases h
    | some node => exact opRead_length hrange (fun vol nd hn => hfat vol nd s₂ (hn ▸ hnode)) h
  cases out with
  | none =>
      cases he
      exact ⟨show x.entry.offset < 2 ^ 63 by omega, fun _ => rfl, fun h => by omega,
        fun h => by omega⟩
  | some bytes =>
      have hle := hlen bytes rfl
      cases he
      have hsum : u64 (x.entry.offset + bytes.length) = x.entry.offset + bytes.length :=
        Nat.mod_eq_of_lt (by omega)
      refine ⟨?_, fun h => by omega, fun _ h => by simp at h, fun _ _ => ?_⟩
      all_goals
        dsimp only
        split_ifs
        · dsimp only
          omega
        · omega

theorem fdWrite_keepsOffset {buf : Bytes} (hrange : (FileCall.write buf).Fits env x)
    (hcall : fileCall env fuel x (.write buf) = some (r, x')) : KeepsOffset x (.write buf) r x' := by
  rw [FileCall.Fits] at hrange
  obtain ⟨⟨r', e, s⟩, hfd, he⟩ := Option.map_eq_some_iff.1 hcall
  cases he
  obtain ⟨⟨r, s₁⟩, hwrite, he⟩ := Option.map_eq_some_iff.1 hfd
  cases he
  obtain ⟨⟨node, s₂⟩, hnode, h⟩ := Option.bind_eq_some_iff.1 hwrite
  have hle : r ≤ buf.length := by
    cases node with
    | none =>
        cases h
        omega
    | some node => exact opWrite_le h
  have hsum : 0 < r → u64 (x.entry.offset + r.toNat) = x.entry.offset + r.toNat := fun _ =>
    Nat.mod_eq_of_lt (by omega)
  refine ⟨?_, fun hr => ?_, fun _ h => by simp at h, fun hr _ => ?_⟩
  all_goals
    dsimp only
    split_ifs with hpos
    · dsimp only
      omega
    · omega

end Laws

/-- **Offsets stay valid.**  In every run on a descriptor of a file in which no sum leaves
`0 .. 2 ^ 63 - 1`, the offset is valid, and a further such call keeps it when it fails, and
returns it or moves it by what it returns when it does not. -/
theorem file_offsets_valid {x : OpenFile σ}
    (hx : ((fileSystem env fuel).restrict fun x call => ∀ c ∈ call, c.Fits env x).Reaches x) :
    x.entry.offset < 2 ^ 63 ∧ ∀ call r x', FileCall.Fits env x call →
      fileCall env fuel x call = some (r, x') → KeepsOffset x call r x' := by
  have hstep : ∀ {x : OpenFile σ} {call r x'}, x.entry.offset < 2 ^ 63 → FileCall.Fits env x call →
      fileCall env fuel x call = some (r, x') → KeepsOffset x call r x' := by
    intro x call r x' hx hfits h
    cases call with
    | lseek off whence => exact fdLseek_keepsOffset hx hfits h
    | read n => exact fdRead_keepsOffset hfits h
    | write buf => exact fdWrite_keepsOffset hfits h
  have hvalid : x.entry.offset < 2 ^ 63 := by
    refine hx.invariant (fun x hx => hx.2.trans (by decide)) fun x call x' hx hs => ?_
    obtain ⟨hfits, hs⟩ := hs
    cases call with
    | none => exact (congrArg FdEntry.offset hs).trans_lt hx
    | some call =>
        obtain ⟨r, hs⟩ := hs
        exact (hstep hx (hfits call rfl) hs).valid
  exact ⟨hvalid, fun _ _ _ => hstep hvalid⟩

/-- A machine without block devices and without processes. -/
def bareEnv : FsEnv Unit where
  dev _ := ⟨fun s _ => (none, s), fun s _ _ => (false, s)⟩
  geo _ := ⟨false, 0, 0, 0, 0, 0, 0, 0, 0, 0, 0, 0, 0⟩
  pids := []
  current := none
  text _ _ := []

/-- A file system in memory, mounted at the root. -/
def mountedRam (ram : RamFs) (root : ℕ) : FsState Unit :=
  ⟨(vfsMount (vfsInit VfsNode) ['/'] (.ram root)).2, ram, ⟨(), ⟨fun _ => 0, 0, false⟩⟩⟩

/-- A descriptor just opened, on a machine without files. -/
def freshFile : OpenFile Unit := ⟨{ FdEntry.zero with type := .file }, mountedRam (emptyRam 8192) 0⟩

/-- The hypothesis of `file_offsets_valid` is satisfiable: `lseek(fd, 5, SEEK_SET)`. -/
theorem file_offsets_valid_seek : KeepsOffset freshFile (.lseek 5 0) 5
    ⟨{ FdEntry.zero with type := .file, offset := 5 }, mountedRam (emptyRam 8192) 0⟩ :=
  (file_offsets_valid bareEnv 0 (.init ⟨rfl, by decide⟩)).2 _ _ _
    ⟨fun _ => by decide, fun h => by simp at h, fun h => by simp at h⟩ rfl

/-- **A seek that fails moves the offset:** `lseek(fd, -1, SEEK_SET)` returns a negative number
and stores `2 ^ 64 - 1`. -/
theorem lseek_stores_negative : ∃ x', fileCall bareEnv 0 freshFile (.lseek (-1) 0) = some (-1, x') ∧
    freshFile.entry.type = .file ∧ freshFile.entry.offset = 0 ∧ x'.entry.offset = 2 ^ 64 - 1 :=
  ⟨_, rfl, rfl, rfl, rfl⟩

end LighthOS
