/-
# The file system in memory

`src/fs/ramfs.c`.  The inodes are allocated on the kernel heap, and so is the buffer
of a file, whose bytes are the cells of the heap at its address; an inode is named by
its address.  Numbers are `uint32_t` where the source has them so, sizes and offsets
of the operations are 64-bit numbers.  A function gives nothing where the heap does
not return.

Names of 63 characters or more are cut off at 63 characters when an inode is made
(`strncpy`), and compared in full when it is looked for.
-/

import LighthOS.Fs.Fat
import LighthOS.Kernel.Path
import LighthOS.Mm.Heap

namespace LighthOS

/-- `RAMFS_MAX_CHILDREN`. -/
def ramfsMaxChildren : ℕ := 256

/-- `RAMFS_MAX_FILE`. -/
def ramfsMaxFile : ℕ := 0xFFFFFFFF

/-- `sizeof(ramfs_inode_t)`. -/
def sizeofRamfsInode : ℕ := 2152

/-- `sizeof(vfs_node_t)`. -/
def sizeofVfsNode : ℕ := 104

/-- `ramfs_inode_t`, without the parent, which no operation reads. -/
structure RamfsInode where
  name : CString
  type : VfsType
  inodeNum : ℕ
  data : ℕ
  size : ℕ
  capacity : ℕ
  children : List ℕ
  deriving DecidableEq

/-- The heap, the inodes on it and `next_inode`. -/
structure RamFs where
  heap : Heap
  inodes : ℕ → RamfsInode
  nextInode : ℕ

/-- `struct vfs_stat`. -/
structure VfsStat where
  inode : ℕ
  type : VfsType
  size : ℕ
  deriving DecidableEq

/-- `n` bytes of memory from `a` on. -/
def bytesAt (mem : Cells) (a n : ℕ) : Bytes := (List.range n).map fun i => UInt8.ofNat (mem (a + i))

/-- `memcpy` of a list of bytes to `a`. -/
def putBytesAt (mem : Cells) (a : ℕ) (bs : Bytes) : Cells := fun x =>
  if a ≤ x ∧ x < a + bs.length then (bs.getD (x - a) 0).toNat else mem x

namespace RamFs

variable (r : RamFs)

/-- Change an inode. -/
def setInode (a : ℕ) (f : RamfsInode → RamfsInode) : RamFs :=
  { r with inodes := Function.update r.inodes a (f (r.inodes a)) }

/-- `ramfs_alloc_inode`: the address, `0` for null. -/
def ramfsAllocInode (name : CString) (type : VfsType) : Option (ℕ × RamFs) :=
  (kmalloc r.heap sizeofRamfsInode).map fun (p, heap) =>
    if p = 0 then (0, { r with heap := heap })
    else (p, { heap := heap, nextInode := u32 (r.nextInode + 1),
               inodes := Function.update r.inodes p
                 ⟨name.take (vfsMaxName - 1), type, r.nextInode, 0, 0, 0, []⟩ })

/-- `inode_to_vfs_node`: whether there was memory for the node. -/
def inodeToVfsNode : Option (Bool × RamFs) :=
  (kmalloc r.heap sizeofVfsNode).map fun (p, heap) => (p != 0, { r with heap := heap })

/-- `ramfs_read`: the bytes, none for `-1`. -/
def ramfsRead (inode size : ℕ) (offset : ℤ) : Option Bytes :=
  let i := r.inodes inode
  if i.type ≠ .file then none
  else if offset < 0 then none
  else if i.size ≤ offset.toNat then some []
  else some (bytesAt r.heap.mem (i.data + offset.toNat) (min size (i.size - offset.toNat)))

/-- The capacity that `ramfs_write` asks for. -/
def newCapacity (needed : ℕ) : ℕ := max (min (needed * 2) ramfsMaxFile) 256

/-- The part of `ramfs_write` that enlarges the buffer; whether there was memory. -/
def ramfsGrow (inode needed : ℕ) : Option (Bool × RamFs) :=
  let i := r.inodes inode
  if needed ≤ i.capacity then some (true, r)
  else do
    let (p, heap) ← kmalloc r.heap (newCapacity needed)
    if p = 0 then some (false, { r with heap := heap })
    else
      let copied := { heap with mem := putBytesAt heap.mem p (bytesAt heap.mem i.data i.size) }
      let heap ← if i.data = 0 then some heap else kfree copied i.data
      some (true, { r with heap := heap }.setInode inode fun i =>
        { i with data := p, capacity := newCapacity needed })

/-- `ramfs_write`: the number of bytes, or `-1`. -/
def ramfsWrite (inode : ℕ) (buf : Bytes) (offset : ℤ) : Option (ℤ × RamFs) :=
  if (r.inodes inode).type ≠ .file then some (-1, r)
  else if offset < 0 then some (-1, r)
  else
    let stop := u64 (offset.toNat + buf.length)
    if stop < offset.toNat ∨ ramfsMaxFile < stop then some (-1, r)
    else (r.ramfsGrow inode stop).map fun (ok, r) =>
      if !ok then (-1, r)
      else
        let i := r.inodes inode
        (buf.length, { r with
          heap := { r.heap with mem := putBytesAt r.heap.mem (i.data + offset.toNat) buf } }.setInode inode
            fun i => { i with size := max i.size stop })

/-- `ramfs_readdir`: the name and the type of a child. -/
def ramfsReaddir (inode index : ℕ) : Option (CString × VfsType) :=
  let i := r.inodes inode
  if i.type ≠ .dir then none
  else (i.children[index]?).map fun c => ((r.inodes c).name, (r.inodes c).type)

/-- The loop over the children that looks for a name. -/
def findChild (inode : ℕ) (name : CString) : Option ℕ :=
  (r.inodes inode).children.find? fun c => (r.inodes c).name == name

/-- `ramfs_finddir`: the inode, none where there is none or no memory for its node. -/
def ramfsFinddir (inode : ℕ) (name : CString) : Option (Option ℕ × RamFs) :=
  if (r.inodes inode).type ≠ .dir then some (none, r)
  else match r.findChild inode name with
    | none => some (none, r)
    | some c => r.inodeToVfsNode.map fun (ok, r) => (if ok then some c else none, r)

/-- `ramfs_create`: whether it succeeded. -/
def ramfsCreate (inode : ℕ) (name : CString) (type : VfsType) : Option (Bool × RamFs) :=
  let i := r.inodes inode
  if i.type ≠ .dir then some (false, r)
  else if ramfsMaxChildren ≤ i.children.length then some (false, r)
  else if (r.findChild inode name).isSome then some (false, r)
  else (r.ramfsAllocInode name type).map fun (c, r) =>
    if c = 0 then (false, r)
    else (true, r.setInode inode fun i => { i with children := i.children ++ [c] })

/-- `ramfs_mkdir`. -/
def ramfsMkdir (inode : ℕ) (name : CString) : Option (Bool × RamFs) := r.ramfsCreate inode name .dir

/-- `ramfs_unlink`: whether it succeeded. -/
def ramfsUnlink (inode : ℕ) (name : CString) : Option (Bool × RamFs) :=
  let i := r.inodes inode
  if i.type ≠ .dir then some (false, r)
  else match r.findChild inode name with
    | none => some (false, r)
    | some c =>
        let victim := r.inodes c
        if victim.type = .dir ∧ victim.children ≠ [] then some (false, r)
        else do
          let heap ← if victim.data = 0 then some r.heap else kfree r.heap victim.data
          let heap ← kfree heap c
          let k := i.children.findIdx fun c => (r.inodes c).name == name
          some (true, { r with heap := heap }.setInode inode fun i =>
            { i with children := i.children.eraseIdx k })

/-- `ramfs_stat`. -/
def ramfsStat (inode : ℕ) : VfsStat :=
  let i := r.inodes inode
  ⟨i.inodeNum, i.type, i.size⟩

/-- `ramfs_init`: the inode of the root, none for null. -/
def ramfsInit : Option (Option ℕ × RamFs) := do
  let (c, r) ← r.ramfsAllocInode ['/'] .dir
  if c = 0 then some (none, r)
  else r.inodeToVfsNode.map fun (ok, r) => (if ok then some c else none, r)

end RamFs

/-- The state before `ramfs_init`, with a heap of `size` bytes. -/
def emptyRam (size : ℕ) : RamFs :=
  ⟨heapInit (fun _ => 0) 0x1000 size, fun _ => ⟨[], .file, 0, 0, 0, 0, []⟩, 0⟩

end LighthOS
