import Xv6.Fs.Format
import Xv6.Fs.Names

/-!
# `mkfs`

The program that makes the first image of the disk, `mkfs/mkfs.c`. It runs on the host and shares with
the kernel nothing but header files. It keeps the image in a file, which it reads and writes by sectors,
takes inodes and blocks in ascending order, and writes the bitmap at the end.

The host is taken to be little-endian, so that `xint` and `xshort` do nothing. What is printed is
left out.
-/

namespace Xv6.Mkfs

open Lib Function FileSys

open Logging (Block getWord setWord)

/-! ### The layout -/

def NINODES : ℕ := 200

def nbitmap : ℕ := FSSIZE / (BSIZE * 8) + 1

def ninodeblocks : ℕ := NINODES / IPB + 1

def nlog : ℕ := LOGSIZE

def nmeta : ℕ := 2 + nlog + ninodeblocks + nbitmap

def nblocks : ℕ := FSSIZE - nmeta

def FSMAGIC : ℕ := 0x10203040

def inodestart : ℕ := 2 + nlog

def bmapstart : ℕ := 2 + nlog + ninodeblocks

def superblock : List ℕ := [FSMAGIC, FSSIZE, nblocks, NINODES, nlog, 2, inodestart, bmapstart]

/-! ### Sectors and inodes -/

/-- The ways in which `mkfs` gives up. -/
inductive Stop
  | die
  /-- A failed `assert`. -/
  | assertion
  deriving DecidableEq, Repr

structure State where
  sect : ℕ → Block
  /-- The length of the image, in sectors. -/
  nsect : ℕ
  freeinode : ℕ
  freeblock : ℕ
  /-- The inodes that were written. No part of the program, which never reads it. -/
  written : List ℕ

def zeroes : Block := fun _ => 0

def wsect (st : State) (sec : ℕ) (buf : Block) : State :=
  { st with sect := update st.sect sec buf, nsect := max st.nsect (sec + 1) }

def rsect (st : State) (sec : ℕ) : Except Stop Block :=
  if sec < st.nsect then .ok (st.sect sec) else .error .die

def winode (st : State) (inum : ℕ) (ip : Dinode) : Except Stop State := do
  let bn := iblock inodestart inum
  let buf ← rsect st bn
  .ok { wsect st bn (setDinodeAt buf inum ip) with written := st.written ++ [inum] }

def rinode (st : State) (inum : ℕ) : Except Stop Dinode := do
  let buf ← rsect st (iblock inodestart inum)
  .ok (dinodeAt buf inum)

def ialloc (st : State) (type : IType) : Except Stop (ℕ × State) := do
  let inum := st.freeinode
  let st ← winode { st with freeinode := inum + 1 } inum { Dinode.zero with type := type, nlink := 1 }
  .ok (inum, st)

def balloc (st : State) (used : ℕ) : Except Stop State :=
  if used < BSIZE * 8 then .ok (wsect st bmapstart ((List.range used).foldl setBit zeroes))
  else .error .assertion

/-! ### Files -/

def mapIndirect (st : State) (din : Dinode) : State × Dinode :=
  if din.addrs NDIRECT = 0 then
    ({ st with freeblock := st.freeblock + 1 },
      { din with addrs := update din.addrs NDIRECT st.freeblock })
  else (st, din)

def mapEntry (st : State) (din : Dinode) (j : ℕ) : Except Stop (ℕ × State) := do
  let indirect ← rsect st (din.addrs NDIRECT)
  if getWord indirect j = 0 then
    let indirect := setWord indirect j st.freeblock
    .ok (getWord indirect j,
      wsect { st with freeblock := st.freeblock + 1 } (din.addrs NDIRECT) indirect)
  else .ok (getWord indirect j, st)

def mapBlock (st : State) (din : Dinode) (fbn : ℕ) : Except Stop (ℕ × State × Dinode) :=
  if fbn < NDIRECT then
    if din.addrs fbn = 0 then
      .ok (st.freeblock, { st with freeblock := st.freeblock + 1 },
        { din with addrs := update din.addrs fbn st.freeblock })
    else .ok (din.addrs fbn, st, din)
  else do
    let (st, din) := mapIndirect st din
    let (x, st) ← mapEntry st din (fbn - NDIRECT)
    .ok (x, st, din)

/-- The loop of `iappend`, in at most `fuel` rounds, with the bytes `p` still to append. -/
def iappendLoop : ℕ → State → Dinode → ℕ → List UInt8 → Except Stop (State × Dinode × ℕ)
  | 0, st, din, off, _ => .ok (st, din, off)
  | fuel + 1, st, din, off, p =>
    if p = [] then .ok (st, din, off)
    else
      let fbn := off / BSIZE
      if fbn < MAXFILE then do
        let (x, st, din) ← mapBlock st din fbn
        let n1 := min p.length ((fbn + 1) * BSIZE - off)
        let buf ← rsect st x
        iappendLoop fuel (wsect st x (store buf (off - fbn * BSIZE) (p.take n1))) din (off + n1)
          (p.drop n1)
      else .error .assertion

def iappend (st : State) (inum : ℕ) (p : List UInt8) : Except Stop State := do
  let din ← rinode st inum
  let (st, din, off) ← iappendLoop p.length st din din.size p
  winode st inum { din with size := off }

/-! ### `main` -/

/-- An input file: the argument of `mkfs`, a C string, and what each `read` of the file returns, up to
its end, if the file can be opened. -/
structure Input where
  arg : List UInt8
  reads : Option (List (List UInt8))
  arg_ne : 0 ∉ arg
  piece : ∀ pieces ∈ reads, ∀ p ∈ pieces, p ≠ [] ∧ p.length ≤ BSIZE

namespace Input

/-- The argument without `user/`. -/
def shortname (f : Input) : List UInt8 :=
  if f.arg.take 5 = [117, 115, 101, 114, 47] then f.arg.drop 5 else f.arg

def name (f : Input) : List UInt8 :=
  if f.shortname.head? = some 95 then f.shortname.tail else f.shortname

def data (f : Input) : List UInt8 := (f.reads.getD []).flatten

end Input

def addFile (rootino : ℕ) (st : State) (f : Input) : Except Stop State :=
  if slash ∈ f.shortname then .error .assertion
  else
    match f.reads with
    | none => .error .die
    | some pieces => do
      let (inum, st) ← ialloc st .file
      let st ← iappend st rootino (Dirent.encode ⟨inum, f.name⟩)
      pieces.foldlM (fun st buf => iappend st inum buf) st

def superBlock : Block := store zeroes 0 (superblock.flatMap (leBytes 4))

def clear : State :=
  let st := (List.range FSSIZE).foldl (fun st i => wsect st i zeroes) ⟨fun _ => zeroes, 0, 1, nmeta, []⟩
  wsect st 1 superBlock

/-- The end of `main`: the size of the root directory is rounded up, and the bitmap is written. -/
def finish (rootino : ℕ) (st : State) : Except Stop State := do
  let din ← rinode st rootino
  let st ← winode st rootino { din with size := (din.size / BSIZE + 1) * BSIZE }
  balloc st st.freeblock

/-- **`main`**, for a list of input files. -/
def main (inputs : List Input) : Except Stop State := do
  let (rootino, st) ← ialloc clear .dir
  if rootino = ROOTINO then do
    let st ← iappend st rootino (Dirent.encode ⟨rootino, dot⟩)
    let st ← iappend st rootino (Dirent.encode ⟨rootino, dotdot⟩)
    let st ← inputs.foldlM (addFile rootino) st
    finish rootino st
  else .error .assertion

end Xv6.Mkfs
