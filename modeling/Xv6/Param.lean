import Mathlib.Algebra.Ring.Nat

/-!
# The kernel's constants

The numbers `param.h`, `fs.h` and `riscv.h` fix at compile time, under their own
names.
-/

namespace Xv6

def NPROC : ℕ := 64

def ROOTDEV : ℕ := 1

/-- The number of blocks one file-system operation may write. -/
def MAXOPBLOCKS : ℕ := 10

/-- The number of block numbers the in-memory log header has room for. -/
def LOGSIZE : ℕ := MAXOPBLOCKS * 3

def NBUF : ℕ := MAXOPBLOCKS * 3

def FSSIZE : ℕ := 1000

def BSIZE : ℕ := 1024

def NDIRECT : ℕ := 12

/-- The number of block numbers its indirect block has room for. -/
def NINDIRECT : ℕ := BSIZE / 4

def MAXFILE : ℕ := NDIRECT + NINDIRECT

def DIRSIZ : ℕ := 14

def ROOTINO : ℕ := 1

def NINODE : ℕ := 50

def NFILE : ℕ := 100

def NOFILE : ℕ := 16

def NDEV : ℕ := 10

def PGSIZE : ℕ := 4096

/-- The number of values of a `uint`. -/
def UINT : ℕ := 2 ^ 32

end Xv6
