/-
# The FAT driver

`src/fs/fat.c`, generic in the block device: the table of clusters, the walk through a
directory with its callbacks, and the operations that the VFS calls.  Numbers are
`uint32_t` unless a comment says otherwise, so sums and products are taken modulo `2^32`.

`fat_next_cluster` and `fat_set_cluster` always return.  The loops over clusters without
a counter (`fat_alloc_cluster`, `fat_free_chain` and the search of `fat_create` for the
last cluster of a directory) take the number of rounds that they may run as an argument,
and give nothing where they would run on; that a call returns means that it gives a
result for some number of rounds.

`kmalloc` is taken to succeed.  What the driver keeps between calls, apart from the
device, is the buffer of the long names, which `dir_walk` resets only in part.
-/

import LighthOS.Fs.BlkDev

namespace LighthOS

/-- `uint32_t` arithmetic. -/
def u32 (n : ℕ) : ℕ := n % 2 ^ 32

/-- `size_t` arithmetic. -/
def u64 (n : ℕ) : ℕ := n % 2 ^ 64

/-- The bytes of a C string, without its terminator. -/
abbrev Bytes := List UInt8

/-- `VFS_MAX_NAME`. -/
def vfsMaxName : ℕ := 64

/-- `VFS_FILE` and `VFS_DIR`. -/
inductive VfsType where
  | file
  | dir
  deriving DecidableEq, Repr

/-! ### The volume -/

/-- `fat_state_t`, without the device. -/
structure FatState where
  isFat32 : Bool
  fatStartLba : ℕ
  sectorsPerFat : ℕ
  numFats : ℕ
  rootDirLba : ℕ
  rootDirSectors : ℕ
  rootEntries : ℕ
  rootCluster : ℕ
  dataStartLba : ℕ
  sectorsPerCluster : ℕ
  bytesPerCluster : ℕ
  totalClusters : ℕ
  partEndLba : ℕ
  deriving DecidableEq, Repr

namespace FatState

variable (st : FatState)

/-- `total_clusters + 1`, the last number of a cluster. -/
def lastCluster : ℕ := u32 (st.totalClusters + 1)

/-- The size of an entry of the table. -/
def entrySize : ℕ := if st.isFat32 then 4 else 2

/-- `FAT32_EOC` or the end mark of FAT16. -/
def eoc : ℕ := if st.isFat32 then 0x0FFFFFFF else 0xFFFF

/-- `FAT32_EOC_MIN` or `FAT16_EOC_MIN`. -/
def eocMin : ℕ := if st.isFat32 then 0x0FFFFFF8 else 0xFFF8

/-- The entry at a byte of a sector of the table; the top four bits of a FAT32 entry are
masked off. -/
def entry (buf : Sector) (off : ℕ) : ℕ :=
  if st.isFat32 then readLe buf off 4 % 2 ^ 28 else readLe buf off 2

/-- The successor that an entry names, `0` for none. -/
def link (next : ℕ) : ℕ :=
  if st.eocMin ≤ next ∨ next < 2 ∨ st.lastCluster < next then 0 else next

/-- The byte of the table at which the entry of a cluster starts. -/
def entryByte (cluster : ℕ) : ℕ := u32 (cluster * st.entrySize)

/-- The sector of the first copy of the table that holds the entry of a cluster. -/
def entryLba (cluster : ℕ) : ℕ := u32 (st.fatStartLba + st.entryByte cluster / 512)

/-- What `fat_set_cluster` stores in an entry: the top four bits of a FAT32 entry stay. -/
def merged (buf : Sector) (off value : ℕ) : ℕ :=
  if st.isFat32 then readLe buf off 4 / 2 ^ 28 * 2 ^ 28 + value % 2 ^ 28 else value

/-- `fat_cluster_to_lba`. -/
def fatClusterToLba (cluster : ℕ) : ℕ :=
  u32 (st.dataStartLba + (cluster + 2 ^ 32 - 2) * st.sectorsPerCluster)

/-- The sectors of a cluster. -/
def clusterLbas (cluster : ℕ) : List ℕ :=
  (List.range st.sectorsPerCluster).map fun s => u32 (st.fatClusterToLba cluster + s)

end FatState

/-! ### Names -/

/-- `to_lower`. -/
def toLower (c : UInt8) : UInt8 := if 65 ≤ c ∧ c ≤ 90 then c + 32 else c

/-- The conversion to capitals of `fat_name_from_dot`. -/
def toUpper (c : UInt8) : UInt8 := if 97 ≤ c ∧ c ≤ 122 then c - 32 else c

/-- A string in a buffer of `n` bytes, up to its terminator. -/
def cString (buf : ℕ → UInt8) (n : ℕ) : Bytes := ((List.range n).map buf).takeWhile (· ≠ 0)

/-- `fat_name_to_dot`, as the C string in its buffer.  The names are too short for the
size of the buffer to matter. -/
def fatNameToDot (name : Bytes) : Bytes :=
  let base := ((name.take 8).takeWhile (· ≠ 32)).map toLower
  let ext := ((name.drop 8).takeWhile (· ≠ 32)).map toLower
  (base ++ if ext = [] then [] else 46 :: ext).takeWhile (· ≠ 0)

/-- A field of `n` bytes, filled with spaces. -/
def padded (n : ℕ) (s : Bytes) : Bytes := s ++ List.replicate (n - s.length) 32

/-- `fat_name_from_dot`: up to eight bytes before the first dot, and up to three behind
them or behind the dot that follows them. -/
def fatNameFromDot (user : Bytes) : Bytes :=
  let base := (user.take 8).takeWhile fun c => c ≠ 0 ∧ c ≠ 46
  let rest := user.drop base.length
  let rest := if rest.head? = some 46 then rest.tail else rest
  padded 8 (base.map toUpper) ++ padded 3 (((rest.take 3).takeWhile (· ≠ 0)).map toUpper)

/-! ### Directory entries -/

/-- The 32 bytes of a `fat_dirent_t`. -/
abbrev Dirent := ℕ → UInt8

/-- The slot at an offset of a sector. -/
def Sector.slot (buf : Sector) (off : ℕ) : Dirent := fun i => if i < 32 then buf (off + i) else 0

namespace Dirent

variable (e : Dirent)

def name : Bytes := (List.range 11).map e
def attr : UInt8 := e 11
def firstCluster : ℕ := readLe e 26 2 + 2 ^ 16 * readLe e 20 2
def size : ℕ := readLe e 28 4

/-- The end of the directory. -/
def isEnd : Bool := e 0 == 0x00

/-- A deleted entry. -/
def isDeleted : Bool := e 0 == 0xE5

/-- A slot of a long name. -/
def isLong : Bool := e.attr == 0x0F

/-- `FAT_ATTR_VOLUME_ID`. -/
def isVolumeId : Bool := e.attr &&& 0x08 != 0

/-- `FAT_ATTR_DIR`. -/
def isDir : Bool := e.attr &&& 0x10 != 0

/-- `VFS_DIR` or `VFS_FILE`. -/
def type : VfsType := if e.isDir then .dir else .file

/-- The stores of `cb_flush`. -/
def patch (size first : ℕ) : Dirent :=
  Sector.put (Sector.put (Sector.put e 28 4 (leBytes size)) 26 2 (leBytes first))
    20 2 (leBytes (first / 2 ^ 16))

end Dirent

/-- An entry as `fat_create` fills it in; all other fields are zero. -/
def newDirent (name : Bytes) (attr : UInt8) (first : ℕ) : Dirent :=
  Dirent.patch (fun i => if i < 11 then name.getD i 0 else if i = 11 then attr else 0) 0 first

/-! ### The state of the driver -/

/-- The accumulator of long names: `lfn_buf`, `lfn_len` and `lfn_active`. -/
structure Lfn where
  buf : ℕ → UInt8
  len : ℕ
  active : Bool

/-- `lfn_reset`. -/
def Lfn.reset (l : Lfn) : Lfn := ⟨Function.update l.buf 0 0, 0, false⟩

/-- The offsets of the characters in a slot of a long name. -/
def lfnOffsets : List ℕ := [1, 3, 5, 7, 9, 14, 16, 18, 20, 22, 24, 28, 30]

/-- The loop of `lfn_collect`; `pos` is `start + i`, which is negative for a slot with the
sequence number `0`.  The bytes that such a slot stores before the buffer are not part of
the model. -/
def lfnStore (raw : Dirent) : List ℕ → ℤ → Lfn → Lfn
  | [], _, l => l
  | off :: offs, pos, l =>
      if 255 ≤ pos then l
      else
        let ch := readLe raw off 2
        if ch = 0 ∨ ch = 0xFFFF then l
        else if pos < 0 then lfnStore raw offs (pos + 1) l
        else lfnStore raw offs (pos + 1)
          ⟨Function.update l.buf pos.toNat (UInt8.ofNat (ch % 128)), max l.len (pos.toNat + 1), l.active⟩

/-- `lfn_collect`. -/
def Lfn.collect (raw : Dirent) (l : Lfn) : Lfn :=
  let l := lfnStore raw lfnOffsets (((raw 0).toNat % 64 : ℕ) * 13 - 13) l
  ⟨Function.update l.buf l.len 0, l.len, true⟩

/-- The long name that precedes an entry, if there is one. -/
def Lfn.name? (l : Lfn) : Option Bytes :=
  if l.active ∧ 0 < l.len then some (cString l.buf 256) else none

/-- The device and the accumulator. -/
structure FatMem (σ : Type) where
  dev : σ
  lfn : Lfn

/-- A node of a FAT volume: the fields of `vfs_node_t` and, in `parent`, the first cluster
of the directory in which it was found (`fat_node_ctx_t`). -/
structure FatNode where
  name : Bytes
  type : VfsType
  size : ℕ
  inode : ℕ
  parent : ℕ
  deriving DecidableEq, Repr

section Driver

variable {σ : Type} (dev : BlkDev σ) (st : FatState)

def FatMem.readSector (m : FatMem σ) (lba : ℕ) : Option Sector × FatMem σ :=
  let r := dev.readSector m.dev lba
  (r.1, { m with dev := r.2 })

def FatMem.writeSector (m : FatMem σ) (lba : ℕ) (buf : Sector) : Bool × FatMem σ :=
  let r := dev.writeSector m.dev lba buf
  (r.1, { m with dev := r.2 })

/-! ### The table -/

/-- `fat_next_cluster`. -/
def fatNextCluster (m : FatMem σ) (cluster : ℕ) : ℕ × FatMem σ :=
  if cluster < 2 ∨ st.lastCluster < cluster then (0, m)
  else
    match m.readSector dev (st.entryLba cluster) with
    | (none, m) => (0, m)
    | (some buf, m) => (st.link (st.entry buf (st.entryByte cluster % 512)), m)

/-- The loop of `fat_set_cluster` over the copies of the table.  The value with the top
bits of one copy is what the next copy gets. -/
def setCopies (cluster : ℕ) : List ℕ → ℕ → FatMem σ → Bool × FatMem σ
  | [], _, m => (true, m)
  | f :: copies, value, m =>
      let sect := u32 (st.fatStartLba + f * st.sectorsPerFat + st.entryByte cluster / 512)
      let off := st.entryByte cluster % 512
      match m.readSector dev sect with
      | (none, m) => (false, m)
      | (some buf, m) =>
          let value := st.merged buf off value
          match m.writeSector dev sect (buf.put off st.entrySize (leBytes value)) with
          | (false, m) => (false, m)
          | (true, m) => setCopies cluster copies value m

/-- `fat_set_cluster`; whether it succeeded. -/
def fatSetCluster (m : FatMem σ) (cluster value : ℕ) : Bool × FatMem σ :=
  setCopies dev st cluster (List.range st.numFats) value m

/-- The loop of `fat_alloc_cluster` that clears a cluster; errors are ignored. -/
def clearCluster (m : FatMem σ) (cluster : ℕ) : FatMem σ :=
  (st.clusterLbas cluster).foldl (fun m lba => (m.writeSector dev lba zeroSector).2) m

/-- The loop of `fat_alloc_cluster` over the clusters from `c` on. -/
def allocFrom : ℕ → ℕ → FatMem σ → Option (ℕ × FatMem σ)
  | 0, _, _ => none
  | fuel + 1, c, m =>
      if st.lastCluster < c then some (0, m)
      else
        match m.readSector dev (st.entryLba c) with
        | (none, m) => some (0, m)
        | (some buf, m) =>
            if st.entry buf (st.entryByte c % 512) = 0 then
              match fatSetCluster dev st m c st.eoc with
              | (false, m) => some (0, m)
              | (true, m) => some (c, clearCluster dev st m c)
            else allocFrom fuel (u32 (c + 1)) m

/-- `fat_alloc_cluster`. -/
def fatAllocCluster (fuel : ℕ) (m : FatMem σ) : Option (ℕ × FatMem σ) :=
  allocFrom dev st fuel 2 m

/-- `fat_free_chain`. -/
def fatFreeChain : ℕ → ℕ → FatMem σ → Option (FatMem σ)
  | 0, _, _ => none
  | fuel + 1, c, m =>
      if 2 ≤ c ∧ c ≤ st.lastCluster then
        let (next, m) := fatNextCluster dev st m c
        let m := (fatSetCluster dev st m c 0).2
        if next = 0 then some m else fatFreeChain fuel next m
      else some m

/-- `fat_walk_chain` from cluster `c`, with `n` more links to follow. -/
def fatWalkChain (fuel : ℕ) (alloc : Bool) : ℕ → ℕ → FatMem σ → Option (ℕ × FatMem σ)
  | 0, c, m => some (c, m)
  | n + 1, c, m =>
      let (next, m) := fatNextCluster dev st m c
      if next ≠ 0 then fatWalkChain fuel alloc n next m
      else if !alloc then some (0, m)
      else do
        let (next, m) ← fatAllocCluster dev st fuel m
        if next = 0 then some (0, m)
        else fatWalkChain fuel alloc n next (fatSetCluster dev st m c next).2

/-- `skip ? fat_walk_chain(st, cluster, skip, alloc) : cluster`. -/
def fatSkip (fuel : ℕ) (alloc : Bool) (skip c : ℕ) (m : FatMem σ) : Option (ℕ × FatMem σ) :=
  if skip ≠ 0 then fatWalkChain dev st fuel alloc skip c m else some (c, m)

/-! ### The walk through a directory -/

/-- A callback of `dir_walk`: it gets an entry, the sector and the offset that it was read
from, and its own argument; a result other than `0` ends the walk. -/
abbrev DirWalkFn (σ α : Type) := Dirent → ℕ → ℕ → α → FatMem σ → Option (ℤ × α × FatMem σ)

section Walk

variable {α : Type} (fn : DirWalkFn σ α)

/-- `SLOT`, as the body of a loop. -/
def walkSlot (buf : Sector) (lba off : ℕ) (s : ℤ × α × FatMem σ) :
    Option (Bool × ℤ × α × FatMem σ) :=
  let e := buf.slot off
  let (_, a, m) := s
  if e.isLong then some (true, 0, a, { m with lfn := m.lfn.collect e })
  else (fn e lba off a m).map fun (rc, a, m) => (rc == 0, rc, a, { m with lfn := m.lfn.reset })

/-- The loop over the slots of a sector, with the `read_sector` before it. -/
def walkSector (lba : ℕ) (s : ℤ × α × FatMem σ) : Option (Bool × ℤ × α × FatMem σ) :=
  let (_, a, m) := s
  match m.readSector dev lba with
  | (none, m) => some (false, -1, a, m)
  | (some buf, m) => Loop.run (walkSlot fn buf lba) ((List.range 16).map (32 * ·)) (0, a, m)

/-- The loop over the clusters of a directory, with `n` more rounds allowed. -/
def walkClusters : ℕ → ℕ → ℤ × α × FatMem σ → Option (Bool × ℤ × α × FatMem σ)
  | 0, _, s => some (true, s)
  | n + 1, c, s =>
      if 2 ≤ c ∧ c ≤ st.lastCluster then do
        let (going, rc, a, m) ← Loop.run (walkSector dev fn) (st.clusterLbas c) s
        if going then
          let (c, m) := fatNextCluster dev st m c
          walkClusters n c (rc, a, m)
        else some (false, rc, a, m)
      else some (true, s)

/-- `dir_ctx_t.is_root`. -/
def isRootDir (dir : ℕ) : Bool := !st.isFat32 && dir == 0

/-- `dir_walk` on the directory with the given inode (`dir_ctx_init`). -/
def dirWalk (dir : ℕ) (a : α) (m : FatMem σ) : Option (ℤ × α × FatMem σ) :=
  let s : ℤ × α × FatMem σ := (0, a, { m with lfn := m.lfn.reset })
  (if isRootDir st dir then
    Loop.run (walkSector dev fn)
      ((List.range st.rootDirSectors).map fun i => u32 (st.rootDirLba + i)) s
  else walkClusters dev st fn (u32 (st.totalClusters + 2)) dir s).map Prod.snd

end Walk

/-! ### The callbacks -/

/-- `readdir_arg_t`; nothing is found yet where `found` is empty. -/
structure ReaddirArg where
  target : ℕ
  seen : ℕ
  found : Option (Bytes × VfsType)

/-- `cb_readdir`. -/
def cbReaddir : DirWalkFn σ ReaddirArg := fun e _ _ a m =>
  if e.isEnd then some (-1, a, m)
  else if e.isDeleted then some (0, a, m)
  else if e.isVolumeId then some (0, a, m)
  else if a.seen = a.target then
    let name := m.lfn.name?.getD (fatNameToDot e.name)
    some (1, { a with found := some (name.take (vfsMaxName - 1), e.type) }, m)
  else some (0, { a with seen := u32 (a.seen + 1) }, m)

/-- The comparison of `cb_lookup` with a long name, without regard to case. -/
def longMatch (name : Bytes) (l : Lfn) : Bool :=
  l.name?.any fun s => s.map toLower == (name.take (vfsMaxName - 1)).map toLower

/-- The comparison of `cb_lookup`: the 8.3 name, or the long name. -/
def lookupMatch (name : Bytes) (e : Dirent) (l : Lfn) : Bool :=
  e.name == fatNameFromDot name || longMatch name l

/-- `cb_lookup`; its argument is the entry that was found. -/
def cbLookup (name : Bytes) : DirWalkFn σ (Option Dirent) := fun e _ _ a m =>
  if e.isEnd then some (-1, a, m)
  else if e.isDeleted then some (0, a, m)
  else if e.isVolumeId then some (0, a, m)
  else if lookupMatch name e m.lfn then some (1, some e, m)
  else some (0, a, m)

/-- The stores of a callback: read the sector again, change the entry, write it back; its
argument is whether this succeeded. -/
def updateSlot (lba off : ℕ) (f : Dirent → Dirent) (m : FatMem σ) : ℤ × Bool × FatMem σ :=
  match m.readSector dev lba with
  | (none, m) => (-1, false, m)
  | (some buf, m) =>
      match m.writeSector dev lba (buf.put off 32 (f (buf.slot off))) with
      | (false, m) => (-1, false, m)
      | (true, m) => (1, true, m)

/-- `cb_find_free_slot`. -/
def cbFindFreeSlot (ent : Dirent) : DirWalkFn σ Bool := fun e lba off a m =>
  if e.isEnd || e.isDeleted then some (updateSlot dev lba off (fun _ => ent) m)
  else some (0, a, m)

/-- `cb_flush`. -/
def cbFlush (name : Bytes) (size first : ℕ) : DirWalkFn σ Bool := fun e lba off a m =>
  if e.isEnd then some (-1, a, m)
  else if e.isDeleted then some (0, a, m)
  else if e.name ≠ fatNameFromDot name then some (0, a, m)
  else some (updateSlot dev lba off (·.patch size first) m)

/-- `cb_unlink`. -/
def cbUnlink (fuel : ℕ) (name : Bytes) : DirWalkFn σ Bool := fun e lba off a m =>
  if e.isEnd then some (-1, a, m)
  else if e.isDeleted then some (0, a, m)
  else if e.name ≠ fatNameFromDot name then some (0, a, m)
  else do
    let m ← if 2 ≤ e.firstCluster then fatFreeChain dev st fuel e.firstCluster m else some m
    some (updateSlot dev lba off (Function.update · 0 0xE5) m)

/-! ### The operations -/

/-- `fat_lookup_in`. -/
def fatLookupIn (dir : ℕ) (name : Bytes) (m : FatMem σ) : Option (Option Dirent × FatMem σ) :=
  (dirWalk dev st (cbLookup name) dir none m).map Prod.snd

/-- The node that `fat_finddir` makes for an entry of a directory.  Where there was no memory for its
context, `fat_write` takes the directory `0` for the one of the node. -/
def nodeOf (ctx : Bool) (dir : ℕ) (name : Bytes) (e : Dirent) : FatNode :=
  ⟨name.take (vfsMaxName - 1), e.type, e.size, e.firstCluster, if ctx then dir else 0⟩

/-- `fat_finddir`.  `room` is what its two `kmalloc`s answer: none without memory for a node, and
otherwise whether there is memory for its context. -/
def fatFinddir (room : Option Bool) (dir : ℕ) (name : Bytes) (m : FatMem σ) :
    Option (Option FatNode × FatMem σ) :=
  (fatLookupIn dev st dir name m).map fun (e, m) =>
    (e.bind fun e => room.map fun ctx => nodeOf ctx dir name e, m)

/-- `fat_readdir`. -/
def fatReaddir (dir index : ℕ) (m : FatMem σ) :
    Option (Option (Bytes × VfsType) × FatMem σ) :=
  (dirWalk dev st cbReaddir dir ⟨index, 0, none⟩ m).map fun (_, a, m) => (a.found, m)

/-- The loop of `fat_read` over the sectors of a cluster: the bytes read so far, and
whether a sector could be read.  The position in the cluster is `clusterOff` and `size` is
a `size_t`. -/
def readSlice (size lba clusterOff s : ℕ) (acc : Bool × Bytes × FatMem σ) :
    Option (Bool × Bool × Bytes × FatMem σ) :=
  let (_, out, m) := acc
  if size ≤ out.length then some (false, true, out, m)
  else if s * 512 + 512 ≤ clusterOff then some (true, true, out, m)
  else
    match m.readSector dev (u32 (lba + s)) with
    | (none, m) => some (false, false, out, m)
    | (some buf, m) =>
        let copyFrom := clusterOff - s * 512
        let chunk := min (512 - copyFrom) (size - out.length)
        some (true, true, out ++ (List.range chunk).map (fun i => buf (copyFrom + i)), m)

/-- The loop of `fat_read` over the clusters, with `n` more rounds allowed. -/
def readClusters (size : ℕ) : ℕ → ℕ → ℕ → Bytes → FatMem σ → Option (Bytes × FatMem σ)
  | 0, _, _, out, m => some (out, m)
  | n + 1, cluster, clusterOff, out, m =>
      if size ≤ out.length ∨ cluster < 2 ∨ st.lastCluster < cluster then some (out, m)
      else do
        let (_, ok, out, m) ← Loop.run (readSlice dev size (st.fatClusterToLba cluster) clusterOff)
          (List.range st.sectorsPerCluster) (true, out, m)
        if ok then
          let (next, m) := fatNextCluster dev st m cluster
          readClusters size n next 0 out m
        else some (out, m)

/-- `fat_read`: the bytes that it copies, and `-1` as `none`.  `size` and `offset` are 64-bit
numbers. -/
def fatRead (node : FatNode) (size offset : ℕ) (m : FatMem σ) :
    Option (Option Bytes × FatMem σ) :=
  if node.type ≠ .file then some (none, m)
  else if node.size ≤ u32 offset then some (some [], m)
  else
    let size := if node.size < u64 (offset + size) then u64 (node.size + 2 ^ 64 - offset) else size
    if node.inode = 0 then some (some [], m)
    else do
      let skip := u32 offset / st.bytesPerCluster
      let (cluster, m) ← fatSkip dev st 0 false skip node.inode m
      if cluster = 0 then some (some [], m)
      else do
        let (out, m) ← readClusters dev st size (u32 (st.totalClusters + 2)) cluster
          (u32 offset % st.bytesPerCluster) [] m
        some (some out, m)

/-- `fat_flush_dirent`. -/
def fatFlushDirent (parent : ℕ) (name : Bytes) (size first : ℕ) (m : FatMem σ) :
    Option (FatMem σ) :=
  (dirWalk dev st (cbFlush dev name size first) parent false m).map fun r => r.2.2

/-- The loop of `fat_write` over the sectors of a cluster: the number of bytes written so
far, and whether the sectors could be read and written. -/
def writeSlice (buf : ℕ → UInt8) (size lba clusterOff s : ℕ) (acc : Bool × ℕ × FatMem σ) :
    Option (Bool × Bool × ℕ × FatMem σ) :=
  let (_, done, m) := acc
  if size ≤ done then some (false, true, done, m)
  else if s * 512 + 512 ≤ clusterOff then some (true, true, done, m)
  else
    let copyTo := clusterOff - s * 512
    let chunk := min (512 - copyTo) (size - done)
    match m.readSector dev (u32 (lba + s)) with
    | (none, m) => some (false, false, done, m)
    | (some sect, m) =>
        match m.writeSector dev (u32 (lba + s)) (sect.put copyTo chunk fun i => buf (done + i)) with
        | (false, m) => some (false, false, done, m)
        | (true, m) => some (true, true, done + chunk, m)

/-- The loop of `fat_write` over the clusters, with `n` more rounds allowed; whether the
sectors could be read and written. -/
def writeClusters (fuel : ℕ) (buf : ℕ → UInt8) (size : ℕ) :
    ℕ → ℕ → ℕ → ℕ → FatMem σ → Option (Bool × ℕ × FatMem σ)
  | 0, _, _, done, m => some (true, done, m)
  | n + 1, cluster, clusterOff, done, m =>
      if size ≤ done ∨ cluster = 0 then some (true, done, m)
      else do
        let (_, ok, done, m) ← Loop.run
          (writeSlice dev buf size (st.fatClusterToLba cluster) clusterOff)
          (List.range st.sectorsPerCluster) (true, done, m)
        if !ok then some (false, done, m)
        else if size ≤ done then writeClusters fuel buf size n cluster 0 done m
        else do
          let (next, m) := fatNextCluster dev st m cluster
          if next ≠ 0 then writeClusters fuel buf size n next 0 done m
          else do
            let (next, m) ← fatAllocCluster dev st fuel m
            if next = 0 then some (true, done, m)
            else writeClusters fuel buf size n next 0 done (fatSetCluster dev st m cluster next).2

/-- The first cluster of a file, which `fat_write` allocates if the file is empty. -/
def firstOrNew (fuel inode : ℕ) (m : FatMem σ) : Option (ℕ × FatMem σ) :=
  if inode = 0 then fatAllocCluster dev st fuel m else some (inode, m)

/-- `fat_write`: the result and the node with its new size and first cluster.  `size` and
`offset` are 64-bit numbers. -/
def fatWrite (fuel : ℕ) (node : FatNode) (buf : ℕ → UInt8) (size offset : ℕ) (m : FatMem σ) :
    Option (ℤ × FatNode × FatMem σ) :=
  if node.type ≠ .file then some (-1, node, m)
  else do
    let (cluster, m) ← firstOrNew dev st fuel node.inode m
    if cluster = 0 then some (-1, node, m)
    else do
      let node := { node with inode := cluster }
      let skip := u32 offset / st.bytesPerCluster
      let (cluster, m) ← fatSkip dev st fuel true skip cluster m
      if cluster = 0 then some (-1, node, m)
      else do
        let (ok, done, m) ← writeClusters dev st fuel buf size (u32 (st.totalClusters + 2)) cluster
          (u32 offset % st.bytesPerCluster) 0 m
        if !ok then some (done, node, m)
        else do
          let node := { node with size := max node.size (u32 (u32 offset + done)) }
          let m ← fatFlushDirent dev st node.parent node.name node.size node.inode m
          some (done, node, m)

/-- The loop of `fat_create` that looks for the last cluster of a directory. -/
def lastOfChain : ℕ → ℕ → FatMem σ → Option (ℕ × FatMem σ)
  | 0, _, _ => none
  | fuel + 1, last, m =>
      let (next, m) := fatNextCluster dev st m last
      if next = 0 then some (last, m)
      else
        let (last, m) := fatNextCluster dev st m last
        lastOfChain fuel last m

/-- The second half of `fat_create`: put an entry into a directory. -/
def addEntry (fuel : ℕ) (dir : ℕ) (ent : Dirent) (m : FatMem σ) : Option (ℤ × FatMem σ) := do
  let (_, written, m) ← dirWalk dev st (cbFindFreeSlot dev ent) dir false m
  if written then some (0, m)
  else if isRootDir st dir then some (-1, m)
  else do
    let (last, m) ← lastOfChain dev st fuel dir m
    let (nc, m) ← fatAllocCluster dev st fuel m
    if nc = 0 then some (-1, m)
    else
      let m := (fatSetCluster dev st m last nc).2
      let m := (m.writeSector dev (st.fatClusterToLba nc) (zeroSector.put 0 32 ent)).2
      some (0, m)

/-- The first sector of a new directory: the entries `.` and `..`. -/
def dotSector (c dir : ℕ) : Sector :=
  (zeroSector.put 0 32 (newDirent (padded 11 [46]) 0x10 c)).put 32 32
    (newDirent (padded 11 [46, 46]) 0x10 dir)

/-- `fat_create`. -/
def fatCreate (fuel : ℕ) (dir : ℕ) (name : Bytes) (type : VfsType) (m : FatMem σ) :
    Option (ℤ × FatMem σ) := do
  let (existing, m) ← fatLookupIn dev st dir name m
  if existing.isSome then some (-1, m)
  else
    match type with
    | .file => addEntry dev st fuel dir (newDirent (fatNameFromDot name) 0 0) m
    | .dir => do
        let (c, m) ← fatAllocCluster dev st fuel m
        if c = 0 then some (-1, m)
        else
          let m := (m.writeSector dev (st.fatClusterToLba c) (dotSector c dir)).2
          addEntry dev st fuel dir (newDirent (fatNameFromDot name) 0x10 c) m

/-- `fat_mkdir`. -/
def fatMkdir (fuel : ℕ) (dir : ℕ) (name : Bytes) (m : FatMem σ) : Option (ℤ × FatMem σ) :=
  fatCreate dev st fuel dir name .dir m

/-- `fat_unlink`. -/
def fatUnlink (fuel : ℕ) (dir : ℕ) (name : Bytes) (m : FatMem σ) : Option (ℤ × FatMem σ) :=
  (dirWalk dev st (cbUnlink dev st fuel name) dir false m).map fun (_, done, m) =>
    (if done then 0 else -1, m)

end Driver

/-! ### Mounting -/

/-- What `fat_mount` reads from the boot sector. -/
def fatGeometry (bs : Sector) (totalSectors : ℕ) : Option FatState :=
  let bytesPerSector := readLe bs 11 2
  let sectorsPerCluster := readLe bs 13 1
  let reservedSectors := readLe bs 14 2
  let numFats := readLe bs 16 1
  let rootEntries := readLe bs 17 2
  let totalSectors16 := readLe bs 19 2
  let sectorsPerFat16 := readLe bs 22 2
  let totalSectors32 := readLe bs 32 4
  let isFat32 := decide (sectorsPerFat16 = 0)
  let fatSize := if isFat32 then readLe bs 36 4 else sectorsPerFat16
  let rootCluster := if isFat32 then readLe bs 44 4 else 0
  if bytesPerSector ≠ 512 ∨ sectorsPerCluster = 0 ∨ reservedSectors = 0 ∨ numFats = 0 then none
  else if isFat32 ∧ fatSize = 0 ∨ ¬isFat32 ∧ rootEntries = 0 then none
  else
    let rootLba := u32 (reservedSectors + numFats * fatSize)
    let rootSects := if isFat32 then 0 else (rootEntries * 32 + 511) / 512
    let dataStart := u32 (rootLba + rootSects)
    let totalSects := if totalSectors16 ≠ 0 then totalSectors16 else totalSectors32
    if totalSects ≤ dataStart then none
    else some
      { isFat32 := isFat32
        fatStartLba := reservedSectors
        sectorsPerFat := fatSize
        numFats := numFats
        rootDirLba := if isFat32 then 0 else rootLba
        rootDirSectors := rootSects
        rootEntries := if isFat32 then 0 else rootEntries
        rootCluster := rootCluster
        dataStartLba := dataStart
        sectorsPerCluster := sectorsPerCluster
        bytesPerCluster := sectorsPerCluster * 512
        totalClusters := (totalSects - dataStart) / sectorsPerCluster
        partEndLba := totalSectors }

/-- The root node that `fat_mount` makes. -/
def FatState.rootNode (st : FatState) : FatNode :=
  ⟨[47], .dir, 0, if st.isFat32 then st.rootCluster else 0, 0⟩

/-- `fat_mount`. -/
def fatMount {σ : Type} (dev : BlkDev σ) (totalSectors : ℕ) (s : σ) :
    Option (FatState × FatNode) :=
  (dev.readSector s 0).1.bind fun bs => (fatGeometry bs totalSectors).map fun st => (st, st.rootNode)

/-! ### A small volume -/

/-- The boot sector of a FAT16 volume of 64 sectors: one copy of the table in sector 1, a
root directory of one sector in sector 2, and 61 clusters of one sector. -/
def smallBoot : Sector := fun i =>
  match i with
  | 12 => 2
  | 13 => 1
  | 14 => 1
  | 16 => 1
  | 17 => 16
  | 19 => 64
  | 22 => 1
  | _ => 0

/-- Its geometry. -/
def smallFat : FatState :=
  { isFat32 := false
    fatStartLba := 1
    sectorsPerFat := 1
    numFats := 1
    rootDirLba := 2
    rootDirSectors := 1
    rootEntries := 16
    rootCluster := 0
    dataStartLba := 3
    sectorsPerCluster := 1
    bytesPerCluster := 512
    totalClusters := 61
    partEndLba := 64 }

/-- The volume with the given table and root directory. -/
def smallDisk (table root : Sector) : Disk := fun lba =>
  match lba with
  | 0 => smallBoot
  | 1 => table
  | 2 => root
  | _ => zeroSector

example : fatGeometry smallBoot 64 = some smallFat := by decide +kernel

/-- The driver before its first call. -/
def freshMem (d : Disk) : FatMem Disk := ⟨d, ⟨zeroSector, 0, false⟩⟩

end LighthOS
