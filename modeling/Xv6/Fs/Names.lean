import Xv6.Param
import Xv6.Lib.Bytes

/-!
# Directory entries and paths

The parts of `fs.c` that only look at characters: what a directory entry is as 16 bytes of a
file, when two names are the same, and how a path is taken apart.
-/

namespace Xv6.FileSys

open Lib

/-- A C string in a field of `DIRSIZ` characters, as `strncmp` sees it. -/
def cstr (name : List UInt8) : List UInt8 := (name.take DIRSIZ).takeWhile (· ≠ 0)

structure Dirent where
  inum : ℕ
  name : List UInt8
  deriving DecidableEq, Repr

def DIRENT : ℕ := 2 + DIRSIZ

def Dirent.decode (bs : List UInt8) : Dirent := ⟨leNat (bs.take 2), bs.drop 2⟩

/-- The bytes of a directory entry, whose name `strncpy` has filled up with zeros. -/
def Dirent.encode (de : Dirent) : List UInt8 :=
  leBytes 2 de.inum ++ (cstr de.name ++ List.replicate (DIRSIZ - (cstr de.name).length) 0)

/-- `namecmp` finds no difference. -/
def sameName (s t : List UInt8) : Bool := cstr s = cstr t

/-- The names `.` and `..`. -/
def dot : List UInt8 := [46]

@[inherit_doc dot] def dotdot : List UInt8 := [46, 46]

def slash : UInt8 := 47

/-- `skipelem`: the next element of a path, cut to `DIRSIZ` characters, and the rest. -/
def skipelem (path : List UInt8) : Option (List UInt8 × List UInt8) :=
  match path.dropWhile (· = slash) with
  | [] => none
  | c :: cs =>
    some (((c :: cs).takeWhile (· ≠ slash)).take DIRSIZ,
      ((c :: cs).dropWhile (· ≠ slash)).dropWhile (· = slash))

end Xv6.FileSys
