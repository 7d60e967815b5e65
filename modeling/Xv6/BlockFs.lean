import Xv6.FsCalls

/-! The functions of kernel/fs.c and kernel/file.c that find, read and write the contents of inodes,
without the cache and the log: the blocks passed to `log_write` are written down. The fields of
`struct inode` that a function changes are passed in and returned as a `Dinode`. -/
namespace Xv6.BlockFs
open ByteFields

structure Store where
  block : ℕ → Block
  /-- what was passed to `log_write`, latest first -/
  logged : List ℕ

abbrev M := EStateM Halt Store

def bread (b : ℕ) : M Block := do
  let s ← get
  return s.block b

def setData (b : ℕ) (v : Block) : M Unit :=
  modify fun s => { s with block := Function.update s.block b v }

def logWrite (b : ℕ) : M Unit := modify fun s => { s with logged := b :: s.logged }

section Storage
variable (sb : Superblock)

def bzero (bno : ℕ) : M Unit := do
  setData bno zeroBlock
  logWrite bno

/-- The outer loop of `balloc`, over the `n` bitmap blocks from that of block `b` on. -/
def ballocFrom : ℕ → ℕ → M ℕ
  | 0, _ => return 0
  | n+1, b => do
    let data ← bread (sb.bblock b)
    match findFree data (min BPB (sb.size-b)) 0 with
    | some bi => do
      setData (sb.bblock b) (setBit data bi)
      logWrite (sb.bblock b)
      bzero (b+bi)
      return b+bi
    | none => ballocFrom n (b+BPB)

def balloc : M ℕ := ballocFrom sb ((sb.size+BPB-1)/BPB) 0

/-- The dinode on the disk, as `ilock` reads it. -/
def readDinode (inum : ℕ) : M Dinode := do
  let data ← bread (sb.iblock inum)
  return getDinode data (inum % IPB)

def iupdate (inum : ℕ) (d : Dinode) : M Unit := do
  let data ← bread (sb.iblock inum)
  setData (sb.iblock inum) (setDinode data (inum % IPB) d)
  logWrite (sb.iblock inum)

/-- `if((addr = ip->addrs[k]) == 0)` and the allocation that follows it. -/
def bmapSlot (d : Dinode) (k : Fin (NDIRECT+1)) : M (ℕ × Dinode) :=
  if d.addrs k = 0 then do
    let addr ← balloc sb
    if addr = 0 then
      return (0, d)
    else
      return (addr, d.setAddr k addr)
  else
    return (d.addrs k, d)

/-- `bmap` for an entry of the indirect block `addr`. -/
def bmapEntry (addr j : ℕ) : M ℕ := do
  let data ← bread addr
  if getLE data (4*j) 4 = 0 then do
    let a ← balloc sb
    if a = 0 then
      return 0
    else do
      let data ← bread addr
      setData addr (setLE data (4*j) 4 a)
      logWrite addr
      return a
  else
    return getLE data (4*j) 4

def bmap (d : Dinode) (bn : ℕ) : M (ℕ × Dinode) :=
  if h : bn < NDIRECT then
    bmapSlot sb d ⟨bn, Nat.lt_succ_of_lt h⟩
  else if bn-NDIRECT < NINDIRECT then do
    let (addr, d) ← bmapSlot sb d indirect
    if addr = 0 then
      return (0, d)
    else do
      let a ← bmapEntry sb addr (bn-NDIRECT)
      return (a, d)
  else
    throw (.panic "bmap: out of range")

end Storage

abbrev Mem := ℕ → UInt8

def memmove (mem : Mem) (dst : ℕ) (bytes : ℕ → UInt8) (n : ℕ) : Mem := fun a =>
  if dst ≤ a ∧ a < dst+n then bytes (a-dst) else mem a

/-- `copyout` of `len` bytes to `dstva`; what was copied before a page that cannot be written stays
copied. -/
def copyoutPages (writable : ℕ → Bool) : ℕ → Mem → ℕ → (ℕ → UInt8) → ℕ → Mem × Bool
  | 0, mem, _, _, _ => (mem, true)
  | fuel+1, mem, dstva, bytes, len =>
    if len = 0 then (mem, true)
    else if writable (dstva/PGSIZE) then
      let n := min (PGSIZE-dstva % PGSIZE) len
      copyoutPages writable fuel (memmove mem dstva bytes n) (dstva+n) (fun k => bytes (n+k)) (len-n)
    else (mem, false)

/-- Where `readi` puts its bytes: kernel memory, or user memory with the pages that `copyout` can
write, those below `MAXVA` that are mapped with `PTE_W` or can be faulted in. -/
inductive Dst where
  | kernel
  | user (writable : ℕ → Bool)

def eitherCopyout (dst : Dst) (mem : Mem) (va : ℕ) (bytes : ℕ → UInt8) (len : ℕ) : Mem × Bool :=
  match dst with
  | .kernel => (memmove mem va bytes len, true)
  | .user writable => copyoutPages writable len mem va bytes len

section Contents
variable (sb : Superblock)

/-- The loop of `readi`; a result `none` is -1.  Addresses do not wrap around: `copyout` refuses those
from `MAXVA` on. -/
def readLoop (dst : Dst) (va : ℕ) : ℕ → Dinode → Mem → ℕ → ℕ → ℕ → M (Option ℕ × Mem × Dinode)
  | 0, d, mem, tot, _, _ => return (some tot, mem, d)
  | fuel+1, d, mem, tot, off, n =>
    if tot < n then do
      let (addr, d) ← bmap sb d (off/BSIZE)
      if addr = 0 then
        return (some tot, mem, d)
      else do
        let data ← bread addr
        let m := min (n-tot) (BSIZE-off % BSIZE)
        let (mem, ok) := eitherCopyout dst mem (va+tot) (fun k => get8 data (off % BSIZE+k)) m
        if ok then
          readLoop dst va fuel d mem (tot+m) (off+m) n
        else
          return (none, mem, d)
    else
      return (some tot, mem, d)

def readi (d : Dinode) (dst : Dst) (mem : Mem) (va off n : ℕ) : M (Option ℕ × Mem × Dinode) :=
  if off > d.size ∨ (off+n) % 2^32 < off then
    return (some 0, mem, d)
  else
    let n := if off+n > d.size then d.size-off else n
    readLoop sb dst va n d mem 0 off n

/-- The loop of `writei`; returns how far it came. -/
def writeLoop (src : Src) : ℕ → Dinode → ℕ → ℕ → ℕ → M (ℕ × ℕ × Dinode)
  | 0, d, tot, off, _ => return (tot, off, d)
  | fuel+1, d, tot, off, n =>
    if tot < n then do
      let (addr, d) ← bmap sb d (off/BSIZE)
      if addr = 0 then
        return (tot, off, d)
      else do
        let data ← bread addr
        let m := min (n-tot) (BSIZE-off % BSIZE)
        let (data, ok) := eitherCopyin src data (off % BSIZE) tot m
        setData addr data
        if ok then do
          logWrite addr
          writeLoop src fuel d (tot+m) (off+m) n
        else
          return (tot, off, d)
    else
      return (tot, off, d)

/-- `writei`; `none` is -1. -/
def writei (inum : ℕ) (d : Dinode) (src : Src) (off n : ℕ) : M (Option ℕ × Dinode) :=
  if off > d.size ∨ (off+n) % 2^32 < off then
    return (none, d)
  else if off+n > MAXFILE*BSIZE then
    return (none, d)
  else do
    let (tot, off, d) ← writeLoop sb src n d 0 off n
    let d := if off > d.size then { d with size := off } else d
    iupdate sb inum d
    return (some tot, d)

/-- The loop of `dirlookup`, over the `n` entries from `off` on; `de` is in kernel memory. -/
def dirlookupFrom (name : Name) : ℕ → ℕ → Dinode → M (Option (ℕ × ℕ) × Dinode)
  | 0, _, d => return (none, d)
  | n+1, off, d => do
    let (r, de, d) ← readi sb d .kernel (fun _ => 0) 0 off DIRENTSIZE
    if r ≠ some DIRENTSIZE then
      throw (.panic "dirlookup read")
    else if direntInum de ≠ 0 ∧ direntName de = name then
      return (some (direntInum de, off), d)
    else
      dirlookupFrom name n (off+DIRENTSIZE) d

/-- `dirlookup`: inode number and offset of the entry. -/
def dirlookup (d : Dinode) (name : Name) : M (Option (ℕ × ℕ) × Dinode) :=
  if d.type = T_DIR then
    dirlookupFrom sb name ((d.size+DIRENTSIZE-1)/DIRENTSIZE) 0 d
  else
    throw (.panic "dirlookup not DIR")

/-- The loop of `namex` for `namei`, from an inode on; references and locks are left out. -/
def namexLoop : List Name → ℕ → M (Option ℕ)
  | [], inum => return some inum
  | name :: rest, inum => do
    let d ← readDinode sb inum
    if d.type = 0 then
      throw (.panic "ilock: no type")
    else if d.type ≠ T_DIR then
      return none
    else do
      let (next, _) ← dirlookup sb d name
      match next with
      | none => return none
      | some (next, _) => namexLoop rest next

/-- `namei` of a path that begins with a slash. -/
def namei (path : List UInt8) : M (Option ℕ) :=
  namexLoop sb (pathElems path.length path) ROOTINO

/-- An `int` as the `uint` parameter of `readi` and `writei`. -/
def uint (n : ℤ) : ℕ := (n % 2^32).toNat

/-- `struct file` of type `FD_INODE`. -/
structure File where
  readable : Bool
  writable : Bool
  off : ℕ

/-- `fileread` of an inode, whose fields are `d`. -/
def fileread (f : File) (d : Dinode) (writable : ℕ → Bool) (mem : Mem) (addr : ℕ) (n : ℤ) :
    M (ℤ × File × Mem × Dinode) :=
  if f.readable = false then
    return (-1, f, mem, d)
  else do
    let (r, mem, d) ← readi sb d (.user writable) mem addr f.off (uint n)
    match r with
    | none => return (-1, f, mem, d)
    | some r =>
      if 0 < r then
        return (r, { f with off := (f.off+r) % 2^32 }, mem, d)
      else
        return (r, f, mem, d)

/-- The limit of one `writei` in `filewrite`. -/
def filewriteMax : ℕ := ((MAXOPBLOCKS-1-1-2)/2)*BSIZE

end Contents
end Xv6.BlockFs
