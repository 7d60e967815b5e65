import Xv6.FsCalls
import Xv6.FileWrites

/-! mkfs/mkfs.c: the image of a file system with the given files in its root directory. The files of
the host can be opened, and writing to the image succeeds. -/
namespace Xv6.Mkfs
open ByteFields

abbrev FSSIZE : ℕ := 2000
abbrev NINODES : ℕ := 200

abbrev nbitmap : ℕ := FSSIZE/BPB+1
abbrev ninodeblocks : ℕ := NINODES/IPB+1
abbrev nlog : ℕ := LOGBLOCKS+1
abbrev nmeta : ℕ := 2+nlog+ninodeblocks+nbitmap
abbrev nblocks : ℕ := FSSIZE-nmeta

def sb : Superblock := ⟨FSMAGIC, FSSIZE, NINODES, 2, 2+nlog, 2+nlog+ninodeblocks⟩

/-- The block with the superblock. -/
def superBlock : Block :=
  let b := setLE zeroBlock 0 4 sb.magic
  let b := setLE b 4 4 sb.size
  let b := setLE b 8 4 nblocks
  let b := setLE b 12 4 sb.ninodes
  let b := setLE b 16 4 nlog
  let b := setLE b 20 4 sb.logstart
  let b := setLE b 24 4 sb.inodestart
  setLE b 28 4 sb.bmapstart

inductive Died where
  | die (msg : String)
  | assert

structure Image where
  block : ℕ → Block
  /-- the length of the image, in blocks -/
  length : ℕ
  freeinode : ℕ
  freeblock : ℕ
  /-- the inodes that were passed to `winode`, which the program does not keep -/
  written : List ℕ

abbrev M := EStateM Died Image

def sector (sec : ℕ) : ℕ := sec*BSIZE % 2^32/BSIZE

def wsect (sec : ℕ) (buf : Block) : M Unit :=
  modify fun s => { s with
    block := Function.update s.block (sector sec) buf
    length := max s.length (sector sec+1) }

/-- `rsect`: `read` returns 0 at the end of the image. -/
def rsect (sec : ℕ) : M Block := do
  let s ← get
  if sector sec < s.length then
    return s.block (sector sec)
  else
    throw (.die "read")

def winode (inum : ℕ) (d : Dinode) : M Unit := do
  let buf ← rsect (sb.iblock inum)
  wsect (sb.iblock inum) (setDinode buf (inum % IPB) d)
  modify fun s => { s with written := inum :: s.written }

def rinode (inum : ℕ) : M Dinode := do
  let buf ← rsect (sb.iblock inum)
  return getDinode buf (inum % IPB)

def newInode (type : ℕ) : Dinode := { Dinode.zero with type := type, nlink := 1 }

def ialloc (type : ℕ) : M ℕ := do
  let s ← get
  modify fun s => { s with freeinode := (s.freeinode+1) % 2^32 }
  winode s.freeinode (newInode type)
  return s.freeinode

def nextBlock : M ℕ := do
  let s ← get
  modify fun s => { s with freeblock := (s.freeblock+1) % 2^32 }
  return s.freeblock

/-- `if(xint(din.addrs[k]) == 0) din.addrs[k] = xint(freeblock++)`. -/
def addrBlock (d : Dinode) (k : Fin (NDIRECT+1)) : M Dinode :=
  if d.addrs k = 0 then do
    let b ← nextBlock
    return d.setAddr k b
  else
    return d

/-- An entry of the indirect block `addr`. -/
def entryBlock (addr j : ℕ) : M ℕ := do
  let entries ← rsect addr
  if getLE entries (4*j) 4 = 0 then do
    let b ← nextBlock
    wsect addr (setLE entries (4*j) 4 b)
    return b
  else
    return getLE entries (4*j) 4

/-- The block of the file with number `fbn`, in the loop of `iappend`. -/
def fileBlock (d : Dinode) (fbn : ℕ) : M (ℕ × Dinode) :=
  if h : fbn < NDIRECT then do
    let d ← addrBlock d ⟨fbn, Nat.lt_succ_of_lt h⟩
    return (d.addrs ⟨fbn, Nat.lt_succ_of_lt h⟩, d)
  else do
    let d ← addrBlock d indirect
    let x ← entryBlock (d.addrs indirect) (fbn-NDIRECT)
    return (x, d)

/-- The loop of `iappend`, with `n` bytes from `p` on to go. -/
def iappendLoop (bytes : ℕ → UInt8) : ℕ → Dinode → ℕ → ℕ → ℕ → M (ℕ × Dinode)
  | 0, d, off, _, _ => return (off, d)
  | fuel+1, d, off, p, n =>
    if 0 < n then
      if off/BSIZE < MAXFILE then do
        let (x, d) ← fileBlock d (off/BSIZE)
        let n1 := min n ((off/BSIZE+1)*BSIZE-off)
        let buf ← rsect x
        wsect x (splice buf (off-off/BSIZE*BSIZE) n1 fun k => bytes (p+k))
        iappendLoop bytes fuel d (off+n1) (p+n1) (n-n1)
      else
        throw .assert
    else
      return (off, d)

def iappend (inum : ℕ) (bytes : List UInt8) : M Unit := do
  let d ← rinode inum
  let (off, d) ← iappendLoop (fun k => bytes.getD k 0) bytes.length d d.size 0 bytes.length
  winode inum { d with size := off }

def dirent (name : Name) (inum : ℕ) : List UInt8 :=
  (List.range DIRENTSIZE).map (direntBytes name inum)

/-- A file on the command line: its name, and what `read` returns until the end of the file. -/
structure Input where
  arg : List UInt8
  reads : List (List UInt8)
  arg_ne : ∀ c ∈ arg, c ≠ 0
  reads_le : ∀ r ∈ reads, r.length ≤ BSIZE

def Input.bytes (f : Input) : List UInt8 := f.reads.flatten

/-- The name behind "user/". -/
def Input.plain (f : Input) : Name :=
  if f.arg.take 5 = [117, 115, 101, 114, 47] then f.arg.drop 5 else f.arg

/-- The name without a leading underscore. -/
def Input.shortname (f : Input) : Name :=
  if f.plain.head? = some 95 then f.plain.tail else f.plain

/-- `while((cc = read(fd, buf, sizeof(buf))) > 0) iappend(inum, buf, cc)`. -/
def appendAll (inum : ℕ) : List (List UInt8) → M Unit
  | [] => return
  | buf :: rest => do
    iappend inum buf
    appendAll inum rest

def addFile (f : Input) : M Unit :=
  if slash ∈ f.plain then
    throw .assert
  else if f.shortname.length ≤ DIRSIZ then do
    let inum ← ialloc T_FILE
    iappend ROOTINO (dirent f.shortname inum)
    appendAll inum f.reads
  else
    throw .assert

def addFiles : List Input → M Unit
  | [] => return
  | f :: rest => do
    addFile f
    addFiles rest

/-- "fix size of root inode dir". -/
def fixRoot : M Unit := do
  let d ← rinode ROOTINO
  winode ROOTINO { d with size := (d.size/BSIZE+1)*BSIZE % 2^32 }

/-- The bitmap with the first `n` blocks in use. -/
def firstBits : ℕ → Block
  | 0 => zeroBlock
  | n+1 => setBit (firstBits n) n

def balloc (used : ℕ) : M Unit :=
  if used < BPB then
    wsect sb.bmapstart (firstBits used)
  else
    throw .assert

/-- `for(i = 0; i < FSSIZE; i++) wsect(i, zeroes)`, from `i` on. -/
def zeroBlocks : ℕ → ℕ → M Unit
  | 0, _ => return
  | n+1, i => do
    wsect i zeroBlock
    zeroBlocks n (i+1)

-- irreducible, as the types of runs of `main` would be evaluated through the loop otherwise
@[irreducible] def format (size : ℕ) : M Unit := do
  modify fun s => { s with freeblock := nmeta }
  zeroBlocks size 0
  wsect 1 superBlock

/-- `main`, once the image is open. -/
def main (files : List Input) : M Unit := do
  format FSSIZE
  let rootino ← ialloc T_DIR
  if rootino = ROOTINO then do
    iappend rootino (dirent dot rootino)
    iappend rootino (dirent dotdot rootino)
    addFiles files
    fixRoot
    let s ← get
    balloc s.freeblock
  else
    throw .assert

def start : Image := ⟨fun _ => zeroBlock, 0, 1, 0, []⟩

end Xv6.Mkfs
