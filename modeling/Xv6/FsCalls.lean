import Xv6.FsStorage
import Xv6.ProcTable

/-! Open files, flags and the elements of paths, kernel/file.h, fcntl.h and fs.c. -/
namespace Xv6
open ByteFields

abbrev NINODE : ℕ := 50
abbrev NDEV : ℕ := 10

instance : NeZero NINODE := ⟨by decide⟩

/-- `struct file`, as far as it is about inodes. -/
structure OpenFile where
  type : FdType
  ref : ℕ
  readable : Bool
  writable : Bool
  ip : Fin NINODE
  off : ℕ
  major : ℕ

/-- Of a process: current directory and open files. -/
structure FsProc where
  cwd : Option (Fin NINODE)
  ofile : Fin NOFILE → Option (Fin NFILE)

/-- The inodes in the order in which loops visit them. -/
@[irreducible] def inodeIndices : List (Fin NINODE) := List.finRange NINODE

abbrev O_RDONLY : ℕ := 0
abbrev O_WRONLY : ℕ := 1
abbrev O_RDWR : ℕ := 2
abbrev O_CREATE : ℕ := 0x200
abbrev O_TRUNC : ℕ := 0x400

def hasFlag (omode flag : ℕ) : Bool := omode/flag % 2 = 1

/-- `((MAXOPBLOCKS-1-1-2) / 2) * BSIZE`. -/
def maxWrite : ℕ := (MAXOPBLOCKS-1-1-2)/2*BSIZE

def slash : UInt8 := 47

/-- `skipelem`: the next path element, cut to `DIRSIZ` bytes, and the rest of the path. -/
def skipelem (path : List UInt8) : Option (Name × List UInt8) :=
  let path := path.dropWhile (· = slash)
  if path = [] then none
  else some ((path.takeWhile (· ≠ slash)).take DIRSIZ,
    (path.dropWhile (· ≠ slash)).dropWhile (· = slash))

/-- The path elements in the order in which `namex` meets them. As `skipelem` also skips the
slashes behind an element, the rest is empty just for the last one. -/
def pathElems : ℕ → List UInt8 → List Name
  | 0, _ => []
  | n+1, path =>
    match skipelem path with
    | none => []
    | some (name, rest) => name :: pathElems n rest

def dot : Name := [46]
def dotdot : Name := [46, 46]

theorem dot_nul : ∀ c ∈ dot, c ≠ 0 := by simp [dot]

theorem dotdot_nul : ∀ c ∈ dotdot, c ≠ 0 := by simp [dotdot]

end Xv6
