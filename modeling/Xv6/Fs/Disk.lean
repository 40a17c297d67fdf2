import Xv6.Log.Header

/-!
# Blocks and inodes

The lower half of `fs.c`: the allocator for disk blocks, the map from the blocks of a file to blocks of the disk, and
reading and writing the contents of an inode. The functions pass the disk along, as the cache shows it, and an inode in
memory is a value they take and return.

The disk is kept in three parts: the inodes, the bitmap and all other blocks. This is faithful as long as no function is
given a number that belongs to another part; that none ever is, is part of what is proved of it.
-/

namespace Xv6.FileSys

open Lib Function

open Logging (Block getWord setWord)

/-! ### The disk -/

/-- The panics of `fs.c`, `file.c` and `sysfile.c`. -/
inductive Panic
  /-- `balloc: out of blocks`. -/
  | outOfBlocks
  /-- `freeing free block`. -/
  | freeingFreeBlock
  | ialloc
  /-- `iget: no inodes`. -/
  | iget
  | ilock
  /-- `ilock: no type`. -/
  | noType
  | iunlock
  /-- `bmap: out of range`. -/
  | bmap
  | dirlookupNotDir
  /-- `dirlookup read`. -/
  | dirlookupRead
  /-- `dirlink read`. -/
  | dirlinkRead
  | dirlink
  /-- `isdirempty: readi`. -/
  | isdirempty
  /-- `unlink: nlink < 1`. -/
  | unlinkNlink
  | unlinkWritei
  /-- `create dots`. -/
  | createDots
  /-- `create: dirlink`. -/
  | createDirlink
  | filedup
  | fileclose
  | fileread
  | filewrite
  deriving DecidableEq, Repr

/-- The type of an inode; the number 0 marks a free one. -/
inductive IType
  | free
  | dir
  | file
  | device
  deriving DecidableEq, Repr

/-- `struct dinode`, which is also the part of `struct inode` that is a copy of it. -/
@[ext] structure Dinode where
  type : IType
  major : ℤ
  minor : ℤ
  /-- A `short`. -/
  nlink : ℤ
  size : ℕ
  /-- `addrs`, of which the first `NDIRECT + 1` are used. -/
  addrs : ℕ → ℕ

def Dinode.zero : Dinode := ⟨.free, 0, 0, 0, 0, fun _ => 0⟩

/-- `struct superblock`, as far as the kernel uses it after the log is set up. -/
structure Superblock where
  size : ℕ
  ninodes : ℕ
  bmapstart : ℕ
  deriving DecidableEq, Repr

structure Disk where
  sb : Superblock
  bitmap : ℕ → Bool
  dinode : ℕ → Dinode
  block : ℕ → Block

/-! ### Blocks -/

/-- `balloc`: the first free block, zeroed. -/
def balloc (d : Disk) : Except Panic (ℕ × Disk) :=
  match (List.range d.sb.size).find? fun b => !d.bitmap b with
  | some b => .ok (b, { d with
      bitmap := update d.bitmap b true
      block := update d.block b fun _ => 0 })
  | none => .error .outOfBlocks

def bfree (d : Disk) (b : ℕ) : Except Panic Disk :=
  if d.bitmap b then .ok { d with bitmap := update d.bitmap b false }
  else .error .freeingFreeBlock

/-! ### Inodes on disk -/

def iupdate (d : Disk) (inum : ℕ) (ip : Dinode) : Disk :=
  { d with dinode := update d.dinode inum ip }

/-! ### The blocks of an inode -/

/-- The part of `bmap` that allocates the indirect block if necessary. -/
def bmapIndirect (d : Disk) (ip : Dinode) : Except Panic (Disk × Dinode) :=
  if ip.addrs NDIRECT = 0 then do
    let (addr, d) ← balloc d
    .ok (d, { ip with addrs := update ip.addrs NDIRECT addr })
  else .ok (d, ip)

/-- `bmap`: the disk block with block `bn` of an inode, allocated if need be. -/
def bmap (d : Disk) (ip : Dinode) (bn : ℕ) : Except Panic (ℕ × Disk × Dinode) :=
  if bn < NDIRECT then
    if ip.addrs bn = 0 then do
      let (addr, d) ← balloc d
      .ok (addr, d, { ip with addrs := update ip.addrs bn addr })
    else .ok (ip.addrs bn, d, ip)
  else if bn - NDIRECT < NINDIRECT then do
    let (d, ip) ← bmapIndirect d ip
    let ind := ip.addrs NDIRECT
    if getWord (d.block ind) (bn - NDIRECT) = 0 then do
      let (addr, d) ← balloc d
      let a := setWord (d.block ind) (bn - NDIRECT) addr
      .ok (addr, { d with block := update d.block ind a }, ip)
    else .ok (getWord (d.block ind) (bn - NDIRECT), d, ip)
  else .error .bmap

def freeDirect (d : Disk) (ip : Dinode) : Except Panic (Disk × Dinode) :=
  (List.range NDIRECT).foldlM (fun (r : Disk × Dinode) i =>
    if r.2.addrs i ≠ 0 then do
      let d ← bfree r.1 (r.2.addrs i)
      .ok (d, { r.2 with addrs := update r.2.addrs i 0 })
    else .ok r) (d, ip)

/-- The loop of `itrunc` over the entries of the indirect block. -/
def freeEntries (d : Disk) (a : Block) : Except Panic Disk :=
  (List.range NINDIRECT).foldlM (fun d j =>
    if getWord a j ≠ 0 then bfree d (getWord a j) else .ok d) d

/-- The part of `itrunc` about the indirect block. -/
def freeIndirect (d : Disk) (ip : Dinode) : Except Panic (Disk × Dinode) :=
  if ip.addrs NDIRECT ≠ 0 then do
    let d ← freeEntries d (d.block (ip.addrs NDIRECT))
    let d ← bfree d (ip.addrs NDIRECT)
    .ok (d, { ip with addrs := update ip.addrs NDIRECT 0 })
  else .ok (d, ip)

def itrunc (d : Disk) (inum : ℕ) (ip : Dinode) : Except Panic (Disk × Dinode) := do
  let (d, ip) ← freeDirect d ip
  let (d, ip) ← freeIndirect d ip
  let ip := { ip with size := 0 }
  .ok (iupdate d inum ip, ip)

/-! ### Contents -/

/-- The loop of `readi`, in at most `fuel` rounds, with `n` bytes still to read. `dst` says for an offset and a length whether the bytes
can be copied there. The answer is `none` if a copy has failed. -/
def readiLoop (dst : ℕ → ℕ → Bool) : ℕ → Disk → Dinode → ℕ → ℕ → ℕ →
    Except Panic (Option (List UInt8) × Disk × Dinode)
  | 0, d, ip, _, _, _ => .ok (some [], d, ip)
  | fuel + 1, d, ip, off, tot, n =>
    if n = 0 then .ok (some [], d, ip)
    else do
      let (addr, d, ip) ← bmap d ip (off / BSIZE)
      let m := min n (BSIZE - off % BSIZE)
      if dst tot m then do
        let bs := load (d.block addr) (off % BSIZE) m
        let (r, d, ip) ← readiLoop dst fuel d ip (off + m) (tot + m) (n - m)
        .ok (r.map (bs ++ ·), d, ip)
      else .ok (none, d, ip)

/-- `readi`. Every round copies a byte at least, so `n` rounds are enough. -/
def readi (d : Disk) (ip : Dinode) (dst : ℕ → ℕ → Bool) (off n : ℕ) : Except Panic (Option (List UInt8) × Disk × Dinode) :=
  if off > ip.size ∨ (off + n) % 2 ^ 32 < off then .ok (some [], d, ip)
  else
    let n := if (off + n) % 2 ^ 32 > ip.size then ip.size - off else n
    readiLoop dst n d ip off 0 n

/-- The loop of `writei`, in at most `fuel` rounds, with `n` bytes still to write. `src` gives for an offset and a length the bytes that
could be copied, and whether these were all. The answer is the number of bytes written. -/
def writeiLoop (src : ℕ → ℕ → List UInt8 × Bool) : ℕ → Disk → Dinode → ℕ → ℕ → ℕ →
    Except Panic (ℕ × Disk × Dinode)
  | 0, d, ip, _, tot, _ => .ok (tot, d, ip)
  | fuel + 1, d, ip, off, tot, n =>
    if n = 0 then .ok (tot, d, ip)
    else do
      let (addr, d, ip) ← bmap d ip (off / BSIZE)
      let m := min n (BSIZE - off % BSIZE)
      let (bs, ok) := src tot m
      let d := { d with block := update d.block addr (store (d.block addr) (off % BSIZE) bs) }
      if ok then writeiLoop src fuel d ip (off + m) (tot + m) (n - m)
      else .ok (tot, d, ip)

/-- `writei`; the answer −1 is `none`. What a failed copy has brought so far is in the
cache, and seen by whoever reads the block next. -/
def writei (d : Disk) (inum : ℕ) (ip : Dinode) (src : ℕ → ℕ → List UInt8 × Bool) (off n : ℕ) : Except Panic (Option ℕ × Disk × Dinode) :=
  if off > ip.size ∨ (off + n) % 2 ^ 32 < off then .ok (none, d, ip)
  else if (off + n) % 2 ^ 32 > MAXFILE * BSIZE then .ok (none, d, ip)
  else do
    let (tot, d, ip) ← writeiLoop src n d ip off 0 n
    let ip := if off + tot > ip.size then { ip with size := off + tot } else ip
    .ok (some tot, iupdate d inum ip, ip)

def toKernel : ℕ → ℕ → Bool := fun _ _ => true

def fromKernel (bs : List UInt8) : ℕ → ℕ → List UInt8 × Bool := fun tot m =>
  ((bs.drop tot).take m, true)

end Xv6.FileSys
