import Xv6.FsLayout
import Xv6.LogCommit
import Xv6.PhysMem

/-! Blocks and inode contents, kernel/fs.c. The fields of `struct inode` that a function changes are
passed in and returned as a `Dinode`; `p` is the process that runs. -/
namespace Xv6
open ByteFields

section Storage
variable (sb : Superblock) (p : ℕ)

def bzero (bno : ℕ) : Kern Unit := do
  let bp ← bread p ROOTDEV bno
  setData bp zeroBlock
  logWrite bp
  brelse p bp

/-- The inner loop of `balloc`, over the `n` bits from `bi` on. -/
def findFree (data : Block) : ℕ → ℕ → Option ℕ
  | 0, _ => none
  | n+1, bi => if getBit data bi then findFree data n (bi+1) else some bi

/-- The outer loop of `balloc`, over the `n` bitmap blocks from that of block `b` on. -/
def ballocFrom : ℕ → ℕ → Kern ℕ
  | 0, _ => return 0
  | n+1, b => do
    let bp ← bread p ROOTDEV (sb.bblock b)
    let m ← get
    match findFree (m.buf bp).data (min BPB (sb.size-b)) 0 with
    | some bi => do
      setData bp (setBit (m.buf bp).data bi)
      logWrite bp
      brelse p bp
      bzero p (b+bi)
      return b+bi
    | none => do
      brelse p bp
      ballocFrom n (b+BPB)

/-- `balloc`: the number of a free block, now zeroed and marked; 0 if there is none. -/
def balloc : Kern ℕ := ballocFrom sb p ((sb.size+BPB-1)/BPB) 0

def Dinode.setAddr (d : Dinode) (k : Fin (NDIRECT+1)) (addr : ℕ) : Dinode :=
  { d with addrs := Function.update d.addrs k addr }

/-- The slot of the indirect block. -/
abbrev indirect : Fin (NDIRECT+1) := Fin.last NDIRECT

/-- `if((addr = ip->addrs[k]) == 0)` and the allocation that follows it. -/
def bmapSlot (d : Dinode) (k : Fin (NDIRECT+1)) : Kern (ℕ × Dinode) :=
  if d.addrs k = 0 then do
    let addr ← balloc sb p
    if addr = 0 then
      return (0, d)
    else
      return (addr, d.setAddr k addr)
  else
    return (d.addrs k, d)

/-- `bmap` for an entry of the indirect block `addr`. -/
def bmapEntry (addr j : ℕ) : Kern ℕ := do
  let bp ← bread p ROOTDEV addr
  let m ← get
  if getLE (m.buf bp).data (4*j) 4 = 0 then do
    let a ← balloc sb p
    if a = 0 then do
      brelse p bp
      return 0
    else do
      let m ← get
      setData bp (setLE (m.buf bp).data (4*j) 4 a)
      logWrite bp
      brelse p bp
      return a
  else do
    brelse p bp
    return getLE (m.buf bp).data (4*j) 4

def bmap (d : Dinode) (bn : ℕ) : Kern (ℕ × Dinode) :=
  if h : bn < NDIRECT then
    bmapSlot sb p d ⟨bn, Nat.lt_succ_of_lt h⟩
  else if bn-NDIRECT < NINDIRECT then do
    let (addr, d) ← bmapSlot sb p d indirect
    if addr = 0 then
      return (0, d)
    else do
      let a ← bmapEntry sb p addr (bn-NDIRECT)
      return (a, d)
  else
    throw (.panic "bmap: out of range")

/-- The loop of `readi`; `copied tot` says whether `either_copyout` of the piece at `tot` works.
The bytes are collected in `out`; a result `none` is -1. -/
def readLoop (copied : ℕ → Bool) :
    ℕ → Dinode → (ℕ → UInt8) → ℕ → ℕ → ℕ → Kern (Option ℕ × (ℕ → UInt8) × Dinode)
  | 0, d, out, tot, _, _ => return (some tot, out, d)
  | fuel+1, d, out, tot, off, n =>
    if tot < n then do
      let (addr, d) ← bmap sb p d (off/BSIZE)
      if addr = 0 then
        return (some tot, out, d)
      else do
        let bp ← bread p ROOTDEV addr
        let mach ← get
        let m := min (n-tot) (BSIZE-off % BSIZE)
        brelse p bp
        if copied tot then
          readLoop copied fuel d
            (fun k => if tot ≤ k ∧ k < tot+m then get8 (mach.buf bp).data (off % BSIZE+(k-tot))
              else out k) (tot+m) (off+m) n
        else
          return (none, out, d)
    else
      return (some tot, out, d)

def readi (d : Dinode) (copied : ℕ → Bool) (off n : ℕ) : Kern (Option ℕ × (ℕ → UInt8) × Dinode) :=
  if off > d.size ∨ (off+n) % 2^32 < off then
    return (some 0, fun _ => 0, d)
  else
    let n := if off+n > d.size then d.size-off else n
    readLoop sb p copied n d (fun _ => 0) 0 off n

/-- User memory as the kernel can read it: the pages that are mapped or can be faulted in. -/
abbrev UserMem := ℕ → Option (Fin PGSIZE → UInt8)

/-- `copyin` of `len` bytes at `srcva` to `dst` at `off`; what was copied before a page that is
not there stays copied. -/
def copyinPages (u : UserMem) : ℕ → Block → ℕ → ℕ → ℕ → Block × Bool
  | 0, dst, _, _, _ => (dst, true)
  | fuel+1, dst, off, srcva, len =>
    if len = 0 then (dst, true)
    else match u (srcva/PGSIZE) with
      | none => (dst, false)
      | some page =>
        let n := min (PGSIZE-srcva % PGSIZE) len
        copyinPages u fuel (splice dst off n fun k => get8 page (srcva % PGSIZE+k)) (off+n)
          (srcva+n) (len-n)

/-- Where `writei` takes its bytes from: a kernel buffer, or user memory at an address. -/
inductive Src where
  | kernel (bytes : ℕ → UInt8)
  | user (u : UserMem) (addr : ℕ)

/-- `either_copyin` of the `len` bytes from `tot` on. -/
def eitherCopyin (src : Src) (dst : Block) (off tot len : ℕ) : Block × Bool :=
  match src with
  | .kernel bytes => (splice dst off len fun k => bytes (tot+k), true)
  | .user u addr => copyinPages u len dst off ((addr+tot) % 2^64) len

end Storage

/-- A path element or the name in a directory entry: the bytes before the first zero. -/
abbrev Name := List UInt8

/-- `struct dirent`, from its bytes. -/
def direntInum (out : ℕ → UInt8) : ℕ := leSum out 2

def direntName (out : ℕ → UInt8) : Name :=
  (List.ofFn fun j : Fin DIRSIZ => out (2+j.val)).takeWhile (· ≠ 0)

/-- `strncpy(de.name, name, DIRSIZ)` and `de.inum = inum`. -/
def direntBytes (name : Name) (inum : ℕ) : ℕ → UInt8 := fun k =>
  if k < 2 then leByte inum k else name.getD (k-2) 0

theorem direntInum_lt (out : ℕ → UInt8) : direntInum out < 2^16 := leSum_lt out 2

theorem direntInum_direntBytes (name : Name) {n : ℕ} (hn : n < 2^16) :
    direntInum (direntBytes name n) = n := by
  have hsame : leSum (direntBytes name n) 2 = leSum (leByte n) 2 := by
    apply leSum_congr
    intro k hk
    exact if_pos hk
  unfold direntInum
  rw [hsame, leSum_leByte]
  exact Nat.mod_eq_of_lt hn

theorem direntName_direntBytes {name : Name} (n : ℕ) (hlen : name.length ≤ DIRSIZ)
    (hzero : ∀ c ∈ name, c ≠ 0) : direntName (direntBytes name n) = name := by
  have hpad : (List.ofFn fun j : Fin DIRSIZ => direntBytes name n (2+j.val)) =
      name++List.replicate (DIRSIZ-name.length) 0 := by
    apply List.ext_getElem
    · rw [List.length_ofFn, List.length_append, List.length_replicate]
      omega
    intro k _ _
    have hk : ¬ 2+k < 2 := by omega
    rw [List.getElem_ofFn]
    unfold direntBytes
    rw [if_neg hk, Nat.add_sub_cancel_left]
    by_cases hkn : k < name.length
    · rw [List.getElem_append_left hkn, List.getD_eq_getElem _ _ hkn]
    · have hle : name.length ≤ k := by omega
      rw [List.getElem_append_right hle, List.getElem_replicate, List.getD_eq_default _ _ hle]
  have hall : ∀ c ∈ name, (decide (c ≠ 0)) = true := fun c hc => decide_eq_true (hzero c hc)
  unfold direntName
  rw [hpad, List.takeWhile_append_of_pos hall]
  cases DIRSIZ-name.length with
  | zero => simp
  | succ m => simp [List.replicate_succ]

end Xv6
