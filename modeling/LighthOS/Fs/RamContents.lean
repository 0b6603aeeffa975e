/-
# What a file of ramfs contains

`ramfs_write` and `ramfs_read` of `src/fs/ramfs.c` on one file.  `ramfs_write` allocates a new
buffer where the old one is too small, copies it and frees it; the heap is the one of
`src/mm/heap.c`, on which anything else may happen between the calls that leaves this file
and its buffer alone.

One call writes what it says or changes nothing (`ramfsWrite_spec`).  So a byte that was
written is read back as it was written last, whatever was allocated in between
(`ram_contents_lastWrite`).
-/

import LighthOS.Fs.Vfs
import LighthOS.Mm.HeapRuns

namespace LighthOS

variable {start e : ℕ} {r r' : RamFs} {i : ℕ} {live : ℕ → Option ℕ}

/-- The buffer of a file is a block in use, or the file has none. -/
structure HoldsFile (start e : ℕ) (r : RamFs) (i : ℕ) (live : ℕ → Option ℕ) : Prop where
  heap : ∃ l, HeapInv start e ⟨r.heap, live⟩ l
  buffer : (r.inodes i).data = 0 ∧ (r.inodes i).capacity = 0 ∨
    live (r.inodes i).data = some (r.inodes i).capacity
  size_le : (r.inodes i).size ≤ (r.inodes i).capacity

/-- The byte `k` of a file. -/
def fileByte (r : RamFs) (i k : ℕ) : UInt8 := UInt8.ofNat (r.heap.mem ((r.inodes i).data + k))

theorem putBytesAt_of_outside {mem : Cells} {a x : ℕ} {bs : Bytes} (h : x < a ∨ a + bs.length ≤ x) :
    putBytesAt mem a bs x = mem x := if_neg (by omega)

/-- Bytes that lie in a block in use. -/
theorem HeapInv.putBytesAt {heap : Heap} {l : List Blk} {p n : ℕ} (h : HeapInv start e ⟨heap, live⟩ l)
    (hp : n = 0 ∨ live p = some n) {offset : ℕ} {buf : Bytes} (hlen : offset + buf.length ≤ n) :
    HeapInv start e ⟨{ heap with mem := putBytesAt heap.mem (p + offset) buf }, live⟩ l := by
  rcases hp with rfl | hp
  · have hsame : LighthOS.putBytesAt heap.mem (p + offset) buf = heap.mem := by
      funext x
      exact if_neg (by omega)
    rw [hsame]
    exact h
  · exact h.overwrite hp fun x hx => if_neg (by omega)

theorem newCapacity_ge {needed : ℕ} (h : needed ≤ ramfsMaxFile) : needed ≤ RamFs.newCapacity needed := by
  unfold RamFs.newCapacity
  omega

/-- What was copied is there. -/
theorem putBytesAt_of_inside {mem : Cells} {a k : ℕ} {bs : Bytes} (h : k < bs.length) :
    UInt8.ofNat (putBytesAt mem a bs (a + k)) = bs.getD k 0 := by
  rw [putBytesAt, if_pos (by omega), Nat.add_sub_cancel_left, UInt8.ofNat_toNat]

theorem getD_bytesAt {mem : Cells} {a n k : ℕ} (h : k < n) :
    (bytesAt mem a n).getD k 0 = UInt8.ofNat (mem (a + k)) := by
  simp [bytesAt, h]

/-- A buffer in use is not at null. -/
theorem HeapInv.live_ne_zero {s : HeapState} {l : List Blk} {p n : ℕ} (h : HeapInv start e s l)
    (hp : s.live p = some n) : p ≠ 0 := by
  obtain ⟨b, -, hb, -⟩ := h.handedOut.block p n hp
  simp only [headerSize] at hb
  omega

/-- **The buffer grows** and keeps the bytes of the file, or there is no memory and nothing
changes. -/
theorem ramfsGrow_spec (hr : HeapRange start e) (h : HoldsFile start e r i live) {needed : ℕ}
    (hmax : needed ≤ ramfsMaxFile) : ∃ ok r', r.ramfsGrow i needed = some (ok, r') ∧
      (ok = false → r' = r) ∧ (ok = true → (∃ live', HoldsFile start e r' i live') ∧
        needed ≤ (r'.inodes i).capacity ∧ (r'.inodes i).size = (r.inodes i).size ∧
        (r'.inodes i).type = (r.inodes i).type ∧
        ∀ k < (r.inodes i).size, fileByte r' i k = fileByte r i k) := by
  obtain ⟨⟨mem, start'⟩, inodes, next⟩ := r
  obtain ⟨⟨l, hl⟩, hbuf, hsize⟩ := h
  obtain rfl : start' = start := hl.start_eq
  unfold RamFs.ramfsGrow
  simp only at hbuf hsize ⊢
  by_cases hfit : needed ≤ (inodes i).capacity
  · exact ⟨true, _, if_pos hfit, by simp, fun _ => ⟨⟨live, ⟨l, hl⟩, hbuf, hsize⟩, hfit, rfl, rfl, fun _ _ => rfl⟩⟩
  have hcap : RamFs.newCapacity needed < 2 ^ 63 := by
    unfold RamFs.newCapacity ramfsMaxFile
    omega
  have hge := newCapacity_ge hmax
  obtain ⟨p, ws, l₁, hw, hk, hfail, hapart, hout, hnew⟩ := hl.kmalloc_writes hr.start_ne hr.lt hr.le hcap
  rw [if_neg hfit, hk mem hl.blocks]
  simp only [Option.bind_eq_bind, Option.bind_some]
  by_cases hp : p = 0
  · refine ⟨false, _, if_pos hp, fun _ => ?_, by simp⟩
    rw [(hfail hp).2]
    rfl
  have hfree : live p = none := (hnew hp).1
  rw [if_neg hp] at hout
  have hl₁ : HeapInv start' e ⟨⟨storeBlocks mem ws, start'⟩,
      Function.update live p (some (RamFs.newCapacity needed))⟩ l₁ := ⟨rfl, hw.blocks _ hl.blocks, hapart, hout⟩
  have hinode : ∀ heap : Heap, (RamFs.setInode ⟨heap, inodes, next⟩ i fun j =>
      { j with data := p, capacity := RamFs.newCapacity needed }).inodes i =
        { inodes i with data := p, capacity := RamFs.newCapacity needed } := fun _ => Function.update_self ..
  simp only [if_neg hp]
  by_cases hdata : (inodes i).data = 0
  · -- there is no buffer yet
    have hzero : (inodes i).capacity = 0 := hbuf.elim And.right fun h => absurd hdata (hl.live_ne_zero h)
    rw [if_pos hdata]
    refine ⟨true, _, rfl, by simp, fun _ => ⟨⟨_, ⟨l₁, hl₁⟩, ?_, ?_⟩, ?_, ?_, ?_, fun k hk => by omega⟩⟩
    · rw [hinode]
      exact Or.inr (Function.update_self ..)
    · rw [hinode]
      exact hsize.trans (Nat.le_of_not_le hfit |>.trans hge)
    · rw [hinode]
      exact hge
    · rw [hinode]
    · rw [hinode]
  · replace hbuf := hbuf.resolve_left fun h => hdata h.1
    have hne : (inodes i).data ≠ p := fun heq => by
      rw [heq, hfree] at hbuf
      cases hbuf
    -- the old bytes are copied into the new block
    generalize hbytes : bytesAt (storeBlocks mem ws) (inodes i).data (inodes i).size = bytes
    have hlen : bytes.length = (inodes i).size := by rw [← hbytes, bytesAt, List.length_map, List.length_range]
    have hnewLive : Function.update live p (some (RamFs.newCapacity needed)) p =
        some (RamFs.newCapacity needed) := Function.update_self ..
    have hl₂ : HeapInv start' e ⟨⟨putBytesAt (storeBlocks mem ws) p bytes, start'⟩,
        Function.update live p (some (RamFs.newCapacity needed))⟩ l₁ :=
      hl₁.overwrite hnewLive fun x hx => putBytesAt_of_outside (by omega)
    -- and the old block is freed
    have hold : (Function.update live p (some (RamFs.newCapacity needed)) (inodes i).data).isSome = true := by
      rw [Function.update_of_ne hne, hbuf]
      rfl
    obtain ⟨ws', l₃, hw', hk', hapart', hout', -⟩ := hl₂.kfree_writes hr.start_ne hr.le hold
    rw [if_neg hdata, hk' _ hl₂.blocks]
    refine ⟨true, _, rfl, by simp, fun _ => ⟨⟨_, ⟨l₃, rfl, hw'.blocks _ hl₂.blocks, hapart', hout'⟩, ?_, ?_⟩,
      ?_, ?_, ?_, fun k hk => ?_⟩⟩
    · rw [hinode]
      exact Or.inr ((Function.update_of_ne hne.symm ..).trans hnewLive)
    · rw [hinode]
      exact hsize.trans (Nat.le_of_not_le hfit |>.trans hge)
    · rw [hinode]
      exact hge
    · rw [hinode]
    · rw [hinode]
    · simp only [fileByte, hinode]
      simp only [RamFs.setInode]
      rw [hl₂.keeps hw' hnewLive (by omega) (by omega),
        putBytesAt_of_inside (by omega), ← hbytes, getD_bytesAt hk]
      exact congrArg UInt8.ofNat (hl.keeps hw hbuf (by omega) (by omega) mem)

/-- **`ramfs_write`** fails and changes nothing, or it stores its bytes into the buffer and keeps
the others. -/
theorem ramfsWrite_spec (hr : HeapRange start e) (h : HoldsFile start e r i live) {buf : Bytes}
    (hbuf : buf.length < 2 ^ 64) (offset : ℤ) : ∃ n r', r.ramfsWrite i buf offset = some (n, r') ∧
      (n = -1 ∧ r' = r ∨ n = buf.length ∧ (∃ live', HoldsFile start e r' i live') ∧ 0 ≤ offset ∧
        (r.inodes i).type = .file ∧ (r'.inodes i).type = .file ∧
        (r.inodes i).size ≤ (r'.inodes i).capacity ∧
        offset.toNat + buf.length ≤ (r'.inodes i).capacity ∧
        (r'.inodes i).size = max (r.inodes i).size (offset.toNat + buf.length) ∧
        ∀ k, (offset.toNat ≤ k ∧ k < offset.toNat + buf.length →
            fileByte r' i k = buf.getD (k - offset.toNat) 0) ∧
          (¬(offset.toNat ≤ k ∧ k < offset.toNat + buf.length) → k < (r.inodes i).size →
            fileByte r' i k = fileByte r i k)) := by
  unfold RamFs.ramfsWrite
  by_cases htype : (r.inodes i).type ≠ .file
  · exact ⟨-1, r, if_pos htype, Or.inl ⟨rfl, rfl⟩⟩
  rw [if_neg htype]
  by_cases hneg : offset < 0
  · exact ⟨-1, r, if_pos hneg, Or.inl ⟨rfl, rfl⟩⟩
  rw [if_neg hneg]
  simp only
  by_cases hmax : u64 (offset.toNat + buf.length) < offset.toNat ∨
      ramfsMaxFile < u64 (offset.toNat + buf.length)
  · exact ⟨-1, r, if_pos hmax, Or.inl ⟨rfl, rfl⟩⟩
  rw [if_neg hmax]
  have hstop : u64 (offset.toNat + buf.length) = offset.toNat + buf.length := by
    unfold u64 ramfsMaxFile at *
    omega
  rw [hstop] at hmax ⊢
  obtain ⟨ok, r₁, hgrow, hfail, hok⟩ := ramfsGrow_spec hr h (Nat.le_of_not_lt fun h => hmax (Or.inr h))
  rw [hgrow]
  cases ok with
  | false =>
      rw [hfail rfl]
      exact ⟨-1, r, rfl, Or.inl ⟨rfl, rfl⟩⟩
  | true =>
      obtain ⟨⟨live', ⟨l, hl⟩, hbuffer, hsize⟩, hcap, hsame, htype', hbytes⟩ := hok rfl
      refine ⟨buf.length, _, rfl, Or.inr ⟨rfl, ⟨live', ?_, ?_, ?_⟩, by omega, by simpa using htype, ?_, ?_, ?_, ?_,
        fun k => ?_⟩⟩
      · exact ⟨l, hl.putBytesAt (hbuffer.imp_left And.right) hcap⟩
      all_goals simp only [RamFs.setInode, Function.update_self, fileByte]
      · exact hbuffer
      · omega
      · rw [htype']
        simpa using htype
      · omega
      · exact hcap
      · rw [hsame]
      · refine ⟨fun hk => ?_, fun hk hlt => ?_⟩
        · rw [show (r₁.inodes i).data + k = (r₁.inodes i).data + offset.toNat + (k - offset.toNat) by omega]
          exact putBytesAt_of_inside (by omega)
        · rw [putBytesAt_of_outside (by omega)]
          exact hbytes k hlt

/-! ### Sequences of writes -/

/-- A file, and the byte that was written last at each position. -/
structure RamFile where
  ram : RamFs
  written : ℕ → Option UInt8

/-- The arguments of `ramfs_write`; `size` is a `size_t`. -/
structure FileWrite where
  buf : Bytes
  size_lt : buf.length < 2 ^ 64
  offset : ℤ

/-- The writes to one file.  Between them (`none`) the heap and the other files may change in
any way that leaves this file and its buffer alone. -/
def ramFileSystem (start e i : ℕ) : System RamFile (Option FileWrite) where
  init x := x.written = (fun _ => none) ∧ ∃ live, HoldsFile start e x.ram i live
  step x w x' := match w with
    | none => x'.written = x.written ∧ x'.ram.inodes i = x.ram.inodes i ∧
        (∀ k < (x.ram.inodes i).size, fileByte x'.ram i k = fileByte x.ram i k) ∧
        ∃ live, HoldsFile start e x'.ram i live
    | some w => ∃ n, x.ram.ramfsWrite i w.buf w.offset = some (n, x'.ram) ∧
        x'.written = if n = -1 then x.written else fun k =>
          if w.offset.toNat ≤ k ∧ k < w.offset.toNat + w.buf.length then w.buf[k - w.offset.toNat]?
          else x.written k

/-- What one call of `ramfs_write` does.  The bytes of the old buffer and those of `buf` are copied
into the new one of `capacity` bytes. -/
structure WritesFile (r : RamFs) (i : ℕ) (w : FileWrite) (n : ℤ) (r' : RamFs) : Prop where
  failed : n = -1 → (r'.inodes i).size = (r.inodes i).size ∧
    ∀ size offset, r'.ramfsRead i size offset = r.ramfsRead i size offset
  size : 1 ≤ n → ((r'.inodes i).size : ℤ) = max ((r.inodes i).size : ℤ) (w.offset + n)
  count : n = -1 ∨ n = w.buf.length
  copied : n ≠ -1 → 0 ≤ w.offset ∧ w.offset.toNat + w.buf.length ≤ (r'.inodes i).capacity ∧
    (r.inodes i).size ≤ (r'.inodes i).capacity

/-- The bytes that were written are those of the file. -/
def HoldsWritten (i : ℕ) (x : RamFile) : Prop :=
  ∀ k b, x.written k = some b → (x.ram.inodes i).type = .file ∧ k < (x.ram.inodes i).size ∧
    fileByte x.ram i k = b

/-- A byte of the file is what `ramfs_read` returns. -/
theorem ramfsRead_byte {k size offset : ℕ} (htype : (r.inodes i).type = .file) (hk : k < (r.inodes i).size)
    (hoff : offset ≤ k) (hsize : k < offset + size) :
    ∃ bytes, r.ramfsRead i size offset = some bytes ∧ bytes[k - offset]? = some (fileByte r i k) := by
  refine ⟨bytesAt r.heap.mem ((r.inodes i).data + offset) (min size ((r.inodes i).size - offset)), ?_, ?_⟩
  · rw [RamFs.ramfsRead, if_neg (by simp [htype]), if_neg (by omega), if_neg (by omega), Int.toNat_natCast]
  · rw [bytesAt, List.getElem?_map, List.getElem?_range (by omega), Option.map_some, fileByte,
      Nat.add_assoc, Nat.add_sub_cancel' hoff]

/-- What `ramfs_read` copies lies in the file. -/
theorem ramfsRead_inside {size : ℕ} {offset : ℤ} {bytes : Bytes} (h : r.ramfsRead i size offset = some bytes)
    (hne : bytes ≠ []) : offset.toNat + bytes.length ≤ (r.inodes i).size := by
  rw [RamFs.ramfsRead] at h
  split_ifs at h
  · cases h
    exact absurd rfl hne
  · cases h
    rw [bytesAt, List.length_map, List.length_range]
    omega

theorem HoldsWritten.write (hr : HeapRange start e) {x x' : RamFile} (hlive : HoldsFile start e x.ram i live)
    (h : HoldsWritten i x) {w : FileWrite} (hs : (ramFileSystem start e i).step x (some w) x') :
    HoldsWritten i x' ∧ ∃ live', HoldsFile start e x'.ram i live' := by
  obtain ⟨n, hw, hwritten⟩ := hs
  obtain ⟨n', r', hw', hcases⟩ := ramfsWrite_spec hr hlive w.size_lt w.offset
  obtain ⟨rfl, rfl⟩ := Prod.mk.inj (Option.some.inj (hw.symm.trans hw'))
  rcases hcases with ⟨rfl, hsame⟩ | ⟨rfl, hlive', -, htype, htype', -, -, hsize, hbytes⟩
  · rw [if_pos rfl] at hwritten
    refine ⟨fun k b hk => ?_, hsame ▸ ⟨live, hlive⟩⟩
    rw [hsame]
    exact h k b (hwritten ▸ hk)
  · rw [if_neg (by omega)] at hwritten
    refine ⟨fun k b hk => ⟨htype', ?_⟩, hlive'⟩
    obtain ⟨hin, hout⟩ := hbytes k
    rw [hwritten] at hk
    simp only at hk
    rw [hsize]
    split_ifs at hk with hrange
    · refine ⟨by omega, ?_⟩
      rw [hin hrange, List.getD_eq_getElem?_getD, hk]
      rfl
    · obtain ⟨-, hlt, hb⟩ := h k b hk
      exact ⟨by omega, (hout hrange hlt).trans hb⟩

/-- **The last write wins.**  In every run of writes to a file, what was written last at a position
is what `ramfs_read` returns there; the size stays within the capacity of the buffer, which
is a block in use; a read copies bytes of the buffer only; and a further write returns and
does what `WritesFile` says. -/
theorem ram_contents_lastWrite (hr : HeapRange start e) {x : RamFile}
    (hx : (ramFileSystem start e i).Reaches x) :
    (∀ k b, x.written k = some b → ∀ size offset : ℕ, offset ≤ k → k < offset + size →
      ∃ bytes, x.ram.ramfsRead i size offset = some bytes ∧ bytes[k - offset]? = some b) ∧
    (∃ live, HoldsFile start e x.ram i live) ∧
    (∀ size offset bytes, x.ram.ramfsRead i size offset = some bytes → bytes ≠ [] →
      offset.toNat + bytes.length ≤ (x.ram.inodes i).capacity) ∧
    ∀ w : FileWrite, ∃ n r', x.ram.ramfsWrite i w.buf w.offset = some (n, r') ∧
      WritesFile x.ram i w n r' ∧ ∃ live, HoldsFile start e r' i live := by
  obtain ⟨hwritten, live, hlive⟩ : HoldsWritten i x ∧ ∃ live, HoldsFile start e x.ram i live := by
    refine hx.invariant (I := fun x => HoldsWritten i x ∧ ∃ live, HoldsFile start e x.ram i live) (fun x hx => ⟨fun k b hk => ?_, hx.2⟩) fun x w x' h hs => ?_
    · rw [hx.1] at hk
      cases hk
    · obtain ⟨hwritten, live, hlive⟩ := h
      cases w with
      | some w => exact hwritten.write hr hlive hs
      | none =>
          obtain ⟨heq, hinode, hbytes, hlive'⟩ := hs
          refine ⟨fun k b hk => ?_, hlive'⟩
          obtain ⟨htype, hlt, hb⟩ := hwritten k b (heq ▸ hk)
          rw [hinode]
          exact ⟨htype, hlt, (hbytes k hlt).trans hb⟩
  refine ⟨fun k b hk size offset hoff hsize => ?_, ⟨live, hlive⟩, fun size offset bytes h hne =>
    (ramfsRead_inside h hne).trans hlive.size_le, fun w => ?_⟩
  · obtain ⟨htype, hlt, rfl⟩ := hwritten k b hk
    exact ramfsRead_byte htype hlt hoff hsize
  · obtain ⟨n, r', hw, hcases⟩ := ramfsWrite_spec hr hlive w.size_lt w.offset
    refine ⟨n, r', hw, ?_⟩
    rcases hcases with ⟨rfl, rfl⟩ | ⟨rfl, hlive', hoff, -, -, hold, hcap, hsize, -⟩
    · exact ⟨⟨fun _ => ⟨rfl, fun _ _ => rfl⟩, fun h => by omega, Or.inl rfl, fun h => absurd rfl h⟩, live, hlive⟩
    · exact ⟨⟨fun h => by omega, fun _ => by rw [hsize]; omega, Or.inr rfl, fun _ => ⟨hoff, hcap, hold⟩⟩, hlive'⟩

/-- The hypotheses of `ram_contents_lastWrite` are satisfiable: a new file on a heap of 8 KiB. -/
theorem ram_contents_lastWrite_empty : ∃ n r', (emptyRam 8192).ramfsWrite 7 [65, 66] 300 = some (n, r') ∧
    WritesFile (emptyRam 8192) 7 ⟨[65, 66], by decide, 300⟩ n r' := by
  have hinv : HeapInv 0x1000 (0x1000 + 8192) ⟨heapInit (fun _ => 0) 0x1000 8192, fun _ => none⟩ _ :=
    HeapInv.init _ (by decide) (by decide) (by decide)
  obtain ⟨-, -, -, hwrite⟩ := ram_contents_lastWrite (i := 7) ⟨by decide, by decide, by decide⟩
    (x := ⟨emptyRam 8192, fun _ => none⟩) (.init ⟨rfl, fun _ => none, ⟨_, hinv⟩, Or.inl ⟨rfl, rfl⟩, le_rfl⟩)
  obtain ⟨n, r', hw, hlaw, -⟩ := hwrite ⟨[65, 66], by decide, 300⟩
  exact ⟨n, r', hw, hlaw⟩

end LighthOS
