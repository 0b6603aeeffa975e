/-
# The virtual file system

`vfs_resolve` and the operations on paths of `src/fs/vfs.c`, over the three file
systems of the kernel: `ramfs.c`, `fat.c` and `procfs.c`.  A node is what its file
system keeps in it; the nodes that a lookup makes are allocated on the kernel heap.

The FAT driver is the one of `Fs.Fat`, with the nodes and contexts that `fat_finddir`
allocates: a node without a context (there was no memory for it) has the parent `0`.
A path is a string of characters, which `fat.c` reads as bytes.  The texts of the
files below `/proc` are a parameter, as is the state of the processes that procfs
shows.  A function gives nothing where the heap or a loop of the FAT driver does not
return; `fuel` is the number of rounds of those loops.
-/

import LighthOS.Fs.Mount
import LighthOS.Fs.RamFs

namespace LighthOS

/-- `enum proc_kind`. -/
inductive ProcKind where
  | root
  | meminfo
  | mounts
  | pidDir
  | pidStatus
  | pidCmdline
  deriving DecidableEq

/-- `VFS_FILE` or `VFS_DIR` for the nodes of procfs. -/
def ProcKind.type : ProcKind → VfsType
  | .root | .pidDir => .dir
  | .meminfo | .mounts | .pidStatus | .pidCmdline => .file

/-- A node: an inode of ramfs, a node of a FAT volume, or a node of procfs with its
`pid`. -/
inductive VfsNode where
  | ram (inode : ℕ)
  | fat (vol : ℕ) (node : FatNode)
  | proc (kind : ProcKind) (pid : ℕ)
  deriving DecidableEq

/-- `sizeof(fat_node_ctx_t)`. -/
def sizeofFatNodeCtx : ℕ := 4

/-- `sizeof(proc_node_t)`. -/
def sizeofProcNode : ℕ := 8

/-- What the file systems see of the machine: the devices and geometries of the FAT
volumes, the pids of the processes that are alive, in the order of their slots, the pid of
the current process, and the texts of the files of procfs. -/
structure FsEnv (σ : Type) where
  dev : ℕ → BlkDev σ
  geo : ℕ → FatState
  pids : List ℕ
  current : Option ℕ
  text : ProcKind → ℕ → Bytes

/-- The state of the file systems. -/
structure FsState (σ : Type) where
  mounts : List (VfsMount VfsNode)
  ram : RamFs
  fat : FatMem σ

/-- The bytes of a string. -/
def toBytes (s : CString) : Bytes := s.map fun c => UInt8.ofNat c.toNat

/-- The string of bytes. -/
def ofBytes (b : Bytes) : CString := b.map fun c => Char.ofNat c.toNat

/-- The loop of `utoa_dec` over its buffer of `room` bytes: the digits of `v`, from the last one on. -/
def utoaDigits : ℕ → ℕ → CString
  | 0, _ => []
  | room + 1, v => if v = 0 then [] else Char.ofNat ('0'.toNat + v % 10) :: utoaDigits room (v / 10)

/-- `utoa_dec`. -/
def utoaDec (v : ℕ) : CString := (if v = 0 then ['0'] else utoaDigits 24 v).reverse

/-- `is_all_digits`: the number, none where the string is no number of 32 bits. -/
def isAllDigits (s : CString) : Option ℕ :=
  if s = [] then none
  else s.foldl (fun v c => v.bind fun v =>
    if c < '0' ∨ '9' < c then none
    else
      let v := v * 10 + (c.toNat - '0'.toNat)
      if 0xFFFFFFFF < v then none else some v) (some 0)

section Ops

variable {σ : Type} (env : FsEnv σ) (fuel : ℕ)

namespace FsState

variable (s : FsState σ)

def setHeap (heap : Heap) : FsState σ := { s with ram := { s.ram with heap := heap } }

/-! ### procfs -/

/-- `new_node` of `procfs.c`: whether there was memory for the node and its context. -/
def newProcNode : Option (Bool × FsState σ) := do
  let (pn, heap) ← kmalloc s.ram.heap sizeofProcNode
  if pn = 0 then some (false, s.setHeap heap)
  else do
    let (v, heap) ← kmalloc heap sizeofVfsNode
    if v = 0 then do
      let heap ← kfree heap pn
      some (false, s.setHeap heap)
    else some (true, s.setHeap heap)

end FsState

/-- The node that `procfs_finddir` makes. -/
def procLookup (kind : ProcKind) (pid : ℕ) (name : CString) : Option VfsNode :=
  if name = ['.'] ∨ name = ['.', '.'] then none
  else match kind with
    | .root =>
        if name = "meminfo".toList then some (.proc .meminfo 0)
        else if name = "mounts".toList then some (.proc .mounts 0)
        else if name = "self".toList then env.current.map (.proc .pidDir ·)
        else ((isAllDigits name).filter (· ∈ env.pids)).map (.proc .pidDir ·)
    | .pidDir =>
        if pid ∉ env.pids then none
        else if name = "status".toList then some (.proc .pidStatus pid)
        else if name = "cmdline".toList then some (.proc .pidCmdline pid)
        else none
    | _ => none

/-- `procfs_finddir`. -/
def procfsFinddir (kind : ProcKind) (pid : ℕ) (name : CString) (s : FsState σ) :
    Option (Option VfsNode × FsState σ) :=
  match procLookup env kind pid name with
  | none => some (none, s)
  | some node => s.newProcNode.map fun (ok, s) => (if ok then some node else none, s)

/-- `procfs_readdir`. -/
def procfsReaddir (kind : ProcKind) (index : ℕ) : Option (CString × VfsType) :=
  match kind, index with
  | .root, 0 => some ("meminfo".toList, .file)
  | .root, 1 => some ("mounts".toList, .file)
  | .root, n + 2 => (env.pids[n]?).map fun pid => (utoaDec pid, .dir)
  | .pidDir, 0 => some ("status".toList, .file)
  | .pidDir, 1 => some ("cmdline".toList, .file)
  | _, _ => none

/-- `procfs_read`. -/
def procfsRead (kind : ProcKind) (pid size : ℕ) (offset : ℤ) : Option Bytes :=
  if offset < 0 then none
  else match kind with
    | .root | .pidDir => none
    | _ => some (((env.text kind pid).drop offset.toNat).take size)

/-! ### FAT nodes on the heap -/

/-- The two `kmalloc`s of `fat_finddir`, for the node and for its context. -/
def nodeRoom (heap : Heap) : Option (Option Bool × Heap) := do
  let (p, heap) ← kmalloc heap sizeofVfsNode
  if p = 0 then some (none, heap)
  else do
    let (ctx, heap) ← kmalloc heap sizeofFatNodeCtx
    some (some (ctx != 0), heap)

/-- `fat_finddir`, with the memory for its node. -/
def fatFinddirNode (vol : ℕ) (dir : FatNode) (name : CString) (s : FsState σ) :
    Option (Option VfsNode × FsState σ) := do
  let (e, fat) ← fatLookupIn (env.dev vol) (env.geo vol) dir.inode (toBytes name) s.fat
  let s := { s with fat := fat }
  match e with
  | none => some (none, s)
  | some e => do
      let (room, heap) ← nodeRoom s.ram.heap
      some (room.map fun ctx => .fat vol (nodeOf ctx dir.inode (toBytes name) e), s.setHeap heap)

/-! ### The operations of a node -/

/-- `node->ops->finddir`. -/
def finddir (node : VfsNode) (name : CString) (s : FsState σ) : Option (Option VfsNode × FsState σ) :=
  match node with
  | .ram i => (s.ram.ramfsFinddir i name).map fun (c, r) => (c.map .ram, { s with ram := r })
  | .fat vol dir => fatFinddirNode env vol dir name s
  | .proc kind pid => procfsFinddir env kind pid name s

/-- `node->ops->read`: the bytes, none for `-1`. -/
def opRead (node : VfsNode) (size : ℕ) (offset : ℤ) (s : FsState σ) :
    Option (Option Bytes × FsState σ) :=
  match node with
  | .ram i => some (s.ram.ramfsRead i size offset, s)
  | .fat vol n => (fatRead (env.dev vol) (env.geo vol) n size (offset % 2 ^ 64).toNat s.fat).map
      fun (out, fat) => (out, { s with fat := fat })
  | .proc kind pid => some (procfsRead env kind pid size offset, s)

/-- `node->ops->write`: the number of bytes, or `-1`. -/
def opWrite (node : VfsNode) (buf : Bytes) (offset : ℤ) (s : FsState σ) : Option (ℤ × FsState σ) :=
  match node with
  | .ram i => (s.ram.ramfsWrite i buf offset).map fun (n, r) => (n, { s with ram := r })
  | .fat vol n =>
      (fatWrite (env.dev vol) (env.geo vol) fuel n (fun i => buf.getD i 0) buf.length
        (offset % 2 ^ 64).toNat s.fat).map fun (n, _, fat) => (n, { s with fat := fat })
  | .proc _ _ => some (-1, s)

/-- `node->ops->readdir`: the name and the type, none for `-1`. -/
def opReaddir (node : VfsNode) (index : ℕ) (s : FsState σ) :
    Option (Option (CString × VfsType) × FsState σ) :=
  match node with
  | .ram i => some (s.ram.ramfsReaddir i index, s)
  | .fat vol dir => (fatReaddir (env.dev vol) (env.geo vol) dir.inode index s.fat).map
      fun (r, fat) => (r.map fun (n, t) => (ofBytes n, t), { s with fat := fat })
  | .proc kind _ => some (procfsReaddir env kind index, s)

/-- `node->ops->stat`. -/
def opStat (node : VfsNode) (s : FsState σ) : VfsStat :=
  match node with
  | .ram i => s.ram.ramfsStat i
  | .fat _ n => ⟨n.inode, n.type, n.size⟩
  | .proc kind _ => ⟨0, kind.type, 0⟩

/-- `node->ops->create`: whether it succeeded. -/
def opCreate (node : VfsNode) (name : CString) (type : VfsType) (s : FsState σ) :
    Option (Bool × FsState σ) :=
  match node with
  | .ram i => (s.ram.ramfsCreate i name type).map fun (ok, r) => (ok, { s with ram := r })
  | .fat vol dir => (fatCreate (env.dev vol) (env.geo vol) fuel dir.inode (toBytes name) type s.fat).map
      fun (rc, fat) => (rc == 0, { s with fat := fat })
  | .proc _ _ => some (false, s)

/-- `node->ops->mkdir`. -/
def opMkdir (node : VfsNode) (name : CString) (s : FsState σ) : Option (Bool × FsState σ) :=
  opCreate env fuel node name .dir s

/-- `node->ops->unlink`. -/
def opUnlink (node : VfsNode) (name : CString) (s : FsState σ) : Option (Bool × FsState σ) :=
  match node with
  | .ram i => (s.ram.ramfsUnlink i name).map fun (ok, r) => (ok, { s with ram := r })
  | .fat vol dir => (fatUnlink (env.dev vol) (env.geo vol) fuel dir.inode (toBytes name) s.fat).map
      fun (rc, fat) => (rc == 0, { s with fat := fat })
  | .proc _ _ => some (false, s)

/-! ### Paths -/

/-- The loop of `vfs_resolve` over the components of the remainder. -/
def resolveFrom : List CString → VfsNode → FsState σ → Option (Option VfsNode × FsState σ)
  | [], node, s => some (some node, s)
  | c :: cs, node, s =>
      if c = [] then resolveFrom cs node s
      else if vfsMaxName ≤ c.length then some (none, s)
      else match finddir env node c s with
        | none => none
        | some (none, s) => some (none, s)
        | some (some node, s) => resolveFrom cs node s

/-- `vfs_resolve`. -/
def vfsResolve (path : CString) (s : FsState σ) : Option (Option VfsNode × FsState σ) :=
  match route s.mounts path with
  | none => some (none, s)
  | some (mnt, rem) =>
      match mnt.fs with
      | none => some (none, s)
      | some root => resolveFrom env ((rem.getD []).splitOn '/') root s

/-- `resolve_parent`, without the lookup: the path of the parent and the name. -/
def splitParent (path : CString) : Option (CString × CString) :=
  if '/' ∉ path then none
  else
    let name := path.reverse.takeWhile (· != '/') |>.reverse
    let dir := path.take (path.length - name.length - 1)
    if dir = [] then some (['/'], name)
    else if vfsMaxPath ≤ dir.length then none
    else some (dir, name)

/-- `resolve_parent`. -/
def resolveParent (path : CString) (s : FsState σ) : Option (Option (VfsNode × CString) × FsState σ) :=
  match splitParent path with
  | none => some (none, s)
  | some (dir, name) => (vfsResolve env dir s).map fun (node, s) => (node.map (·, name), s)

/-- `vfs_stat`, none for `-1`. -/
def vfsStat (path : CString) (s : FsState σ) : Option (Option VfsStat × FsState σ) :=
  (vfsResolve env path s).map fun (node, s) => (node.map (opStat · s), s)

/-- `vfs_read`. -/
def vfsRead (path : CString) (size : ℕ) (offset : ℤ) (s : FsState σ) :
    Option (Option Bytes × FsState σ) :=
  (vfsResolve env path s).bind fun (node, s) =>
    node.elim (some (none, s)) (opRead env · size offset s)

/-- `vfs_write`. -/
def vfsWrite (path : CString) (buf : Bytes) (offset : ℤ) (s : FsState σ) : Option (ℤ × FsState σ) :=
  (vfsResolve env path s).bind fun (node, s) =>
    node.elim (some (-1, s)) (opWrite env fuel · buf offset s)

/-- `vfs_readdir`. -/
def vfsReaddir (path : CString) (index : ℕ) (s : FsState σ) :
    Option (Option (CString × VfsType) × FsState σ) :=
  (vfsResolve env path s).bind fun (node, s) => node.elim (some (none, s)) (opReaddir env · index s)

/-- `vfs_create`: whether it succeeded. -/
def vfsCreate (path : CString) (type : VfsType) (s : FsState σ) : Option (Bool × FsState σ) :=
  (resolveParent env path s).bind fun (parent, s) =>
    parent.elim (some (false, s)) fun (node, name) =>
      if name = [] then some (false, s) else opCreate env fuel node name type s

/-- `vfs_unlink`. -/
def vfsUnlink (path : CString) (s : FsState σ) : Option (Bool × FsState σ) :=
  (resolveParent env path s).bind fun (parent, s) =>
    parent.elim (some (false, s)) fun (node, name) => opUnlink env fuel node name s

/-- `vfs_mkdir`. -/
def vfsMkdir (path : CString) (s : FsState σ) : Option (Bool × FsState σ) :=
  (resolveParent env path s).bind fun (parent, s) =>
    parent.elim (some (false, s)) fun (node, name) => opMkdir env fuel node name s

end Ops

end LighthOS
