import Xv6.FsCalls
import Xv6.Interleaving

/-! The operations of kernel/fs.c, file.c and sysfile.c on inodes, one for each stretch of code that
other processes cannot get in between of. On the disk there is a `dinode` and there are bytes for
each inode number. `begin_op` and `end_op` act on the log only and are left out. -/
namespace Xv6.Inodes

open Interleaving Function

/-- The fields of `struct dinode`, without the addresses of the blocks. -/
structure Dnode where
  type : ℕ
  major : ℕ
  minor : ℕ
  nlink : ℕ
  size : ℕ
  deriving DecidableEq, Repr

structure Inode where
  inum : ℕ
  ref : ℕ
  lock : Option (Fin NPROC)
  valid : Bool
  d : Dnode

structure State where
  ninodes : ℕ
  inode : Fin NINODE → Inode
  dinode : ℕ → Dnode
  data : ℕ → ℕ → UInt8
  file : Fin NFILE → OpenFile
  proc : Fin NPROC → FsProc

def State.setInode (s : State) (i : Fin NINODE) (ip : Inode) : State :=
  { s with inode := update s.inode i ip }

def State.iupdate (s : State) (i : Fin NINODE) (d : Dnode) : State :=
  { s with inode := update s.inode i { s.inode i with d := d }
           dinode := update s.dinode (s.inode i).inum d }

def State.setData (s : State) (inum : ℕ) (bytes : ℕ → UInt8) : State :=
  { s with data := update s.data inum bytes }

def State.setFile (s : State) (f : Fin NFILE) (fl : OpenFile) : State :=
  { s with file := update s.file f fl }

def State.setProc (s : State) (p : Fin NPROC) (pr : FsProc) : State :=
  { s with proc := update s.proc p pr }

/-! ## Contents -/

def entryInum (data : ℕ → UInt8) (off : ℕ) : ℕ := direntInum fun k => data (off+k)
def entryName (data : ℕ → UInt8) (off : ℕ) : Name := direntName fun k => data (off+k)

/-- The loop of `dirlookup`, over the `n` entries from `off` on; `none` when an entry is cut off by
the end of the directory. -/
def findEntry (data : ℕ → UInt8) (size : ℕ) (name : Name) : ℕ → ℕ → Option (Option (ℕ × ℕ))
  | 0, _ => some none
  | n+1, off =>
    if off+DIRENTSIZE > size then none
    else if entryInum data off ≠ 0 ∧ entryName data off = name then
      some (some (entryInum data off, off))
    else findEntry data size name n (off+DIRENTSIZE)

/-- The loop of `dirlink`: the offset of an empty entry, or the end. -/
def findEmpty (data : ℕ → UInt8) (size : ℕ) : ℕ → ℕ → Option ℕ
  | 0, off => some off
  | n+1, off =>
    if off+DIRENTSIZE > size then none
    else if entryInum data off = 0 then some off
    else findEmpty data size n (off+DIRENTSIZE)

def allEmpty (data : ℕ → UInt8) (size : ℕ) : ℕ → ℕ → Option Bool
  | 0, _ => some true
  | n+1, off =>
    if off+DIRENTSIZE > size then none
    else if entryInum data off ≠ 0 then some false
    else allEmpty data size n (off+DIRENTSIZE)

def Dnode.entries (d : Dnode) : ℕ := (d.size+DIRENTSIZE-1)/DIRENTSIZE

/-- The loop of `writei`: how many bytes get written.  `ok tot` tells whether there is a block for
the piece at `tot` and the piece can be copied. -/
def writeLoop (ok : ℕ → Bool) : ℕ → ℕ → ℕ → ℕ → ℕ
  | 0, tot, _, _ => tot
  | fuel+1, tot, off, n =>
    if tot < n ∧ ok tot then
      let m := min (n-tot) (BSIZE-off % BSIZE)
      writeLoop ok fuel (tot+m) (off+m) n
    else tot

/-- `writei`: its result (`none` is -1), the new fields and the new contents. -/
def writei (ok : ℕ → Bool) (d : Dnode) (data : ℕ → UInt8) (bytes : ℕ → UInt8) (off n : ℕ) :
    Option ℕ × Dnode × (ℕ → UInt8) :=
  if off > d.size ∨ (off+n) % 2^32 < off then (none, d, data)
  else if off+n > MAXFILE*BSIZE then (none, d, data)
  else
    let tot := writeLoop ok n 0 off n
    (some tot, if off+tot > d.size then { d with size := off+tot } else d,
      fun k => if off ≤ k ∧ k < off+tot then bytes (k-off) else data k)

/-- The changes of the fields of a locked inode that are followed by `iupdate`. -/
inductive Change where
  | incLink
  | decLink
  | noLinks
  | fresh (major minor : ℕ)

def Change.apply : Change → Dnode → Dnode
  | .incLink, d => { d with nlink := (d.nlink+1) % 2^16 }
  | .decLink, d => { d with nlink := (d.nlink+(2^16-1)) % 2^16 }
  | .noLinks, d => { d with nlink := 0 }
  | .fresh major minor, d => { d with major := major, minor := minor, nlink := 1 }

theorem Change.apply_size (c : Change) (d : Dnode) : (c.apply d).size = d.size := by
  cases c <;> rw [Change.apply]

theorem Change.apply_type (c : Change) (d : Dnode) : (c.apply d).type = d.type := by
  cases c <;> rw [Change.apply]

/-! ## Operations -/

inductive Op : Type → Type
  /-- `iget` of the root or of an inode number from a directory -/
  | iget (inum : ℕ) : Op (Fin NINODE)
  /-- `iget` at the end of `ialloc` -/
  | igetNew (inum : ℕ) : Op (Fin NINODE)
  /-- `idup(myproc()->cwd)` -/
  | dupCwd : Op (Fin NINODE)
  /-- `ilock` up to and including `acquiresleep`; in `create`, `new` is the directory for which it
  has allocated the inode -/
  | acquire (i : Fin NINODE) (new : Option (Fin NINODE)) : Op Unit
  /-- the rest of `ilock` -/
  | load (i : Fin NINODE) : Op Unit
  /-- `iunlock` -/
  | unlock (i : Fin NINODE) : Op Unit
  /-- `iput` up to the release of `itable.lock`; true if the inode is to be freed -/
  | put (i : Fin NINODE) : Op Bool
  /-- `itrunc` -/
  | itrunc (i : Fin NINODE) : Op Unit
  /-- `ip->type = 0; iupdate(ip)` in `iput` -/
  | free (i : Fin NINODE) : Op Unit
  /-- `ip->valid = 0; releasesleep(&ip->lock)` in `iput` -/
  | invalidate (i : Fin NINODE) : Op Unit
  /-- the last `ip->ref--` of such an `iput` -/
  | drop (i : Fin NINODE) : Op Unit
  /-- read the fields of a locked inode -/
  | fields (i : Fin NINODE) : Op Dnode
  /-- `ip->inum` -/
  | inum (i : Fin NINODE) : Op ℕ
  /-- `dirlookup` without its `iget`: inode number and offset of the entry -/
  | lookup (i : Fin NINODE) (name : Name) : Op (Option (ℕ × ℕ))
  /-- `dirlink` once the name is known not to be there -/
  | link (i : Fin NINODE) (name : Name) (inum : ℕ) : Op Bool
  /-- `isdirempty` -/
  | isdirempty (i : Fin NINODE) : Op Bool
  /-- fields of a locked inode change, with `iupdate` -/
  | change (i : Fin NINODE) (c : Change) : Op Unit
  /-- `writei` of an empty entry in `sys_unlink`; false if it is not written -/
  | erase (i : Fin NINODE) (off : ℕ) : Op Bool
  /-- `ialloc(dp->dev, type)` without its `iget` -/
  | ialloc (dp : Fin NINODE) (type : ℕ) : Op (Option ℕ)
  /-- `writei` at the offset of file `f`, in `filewrite` -/
  | write (f : Fin NFILE) (i : Fin NINODE) (bytes : ℕ → UInt8) (n : ℕ) : Op (Option ℕ)
  /-- `readi` at the offset of file `f`, in `fileread` -/
  | read (f : Fin NFILE) (i : Fin NINODE) (n : ℕ) : Op Unit
  /-- `readi` in `kexec` -/
  | readi (i : Fin NINODE) (off n : ℕ) : Op ℕ
  /-- `filealloc` -/
  | filealloc : Op (Option (Fin NFILE))
  /-- `fdalloc` -/
  | fdalloc (f : Fin NFILE) : Op (Option (Fin NOFILE))
  /-- `sys_open` sets the fields of its file -/
  | openFile (f : Fin NFILE) (i : Fin NINODE) (d : Dnode) (omode : ℕ) : Op Unit
  /-- `fileclose` up to the release of `ftable.lock`: the inode to be put -/
  | dropFile (f : Fin NFILE) : Op (Option (Fin NINODE))
  /-- `argfd` -/
  | argFile (fd : Fin NOFILE) : Op (Option (Fin NFILE))
  /-- `myproc()->ofile[fd] = 0` in `sys_close`, with the file that was there -/
  | takeFile (fd : Fin NOFILE) : Op (Option (Fin NFILE))
  /-- `fdalloc` and `filedup` in `sys_dup` -/
  | dupFile (fd : Fin NOFILE) : Op (Option (Fin NOFILE))
  /-- read the fields of an open file -/
  | fileFields (f : Fin NFILE) : Op OpenFile
  /-- `p->ofile[fd]` in `kexit` -/
  | exitFile (fd : Fin NOFILE) : Op (Option (Fin NFILE))
  /-- `p->ofile[fd] = 0` in `kexit` -/
  | clearFd (fd : Fin NOFILE) : Op Unit
  /-- `p->cwd`, which is put next -/
  | takeCwd : Op (Fin NINODE)
  /-- `p->cwd = ip` -/
  | setCwd (i : Option (Fin NINODE)) : Op Unit
  /-- `kfork`: the new process gets every file and the current directory once more -/
  | fork (np : Fin NPROC) : Op Unit
  | panic (msg : String) : Op Unit

/-- What the layers below, user memory and other processes decide during an operation: for each
piece of a file, whether there is a block for it and it can be copied; and how many inodes `ialloc`
has passed before, each one when it was in use. -/
structure Choice where
  ok : ℕ → Bool
  passed : ℕ

/-- The loop of `ialloc`, over the `n` inodes from `inum` on. -/
def findFree (dinode : ℕ → Dnode) : ℕ → ℕ → Option ℕ
  | 0, _ => none
  | n+1, inum => if (dinode inum).type = 0 then some inum else findFree dinode n (inum+1)

/-- Number of bytes that `readi` returns. -/
def readLength (d : Dnode) (off n : ℕ) : ℕ :=
  if off > d.size ∨ (off+n) % 2^32 < off then 0
  else if off+n > d.size then d.size-off else n

section Exec
variable (p : Fin NPROC) (x : Choice) (s : State)

def iget (inum : ℕ) : Outcome State (Fin NINODE) :=
  match inodeIndices.find? fun i => (s.inode i).ref > 0 ∧ (s.inode i).inum = inum with
  | some i => .done i (s.setInode i { s.inode i with ref := (s.inode i).ref+1 })
  | none =>
    match inodeIndices.find? fun i => (s.inode i).ref = 0 with
    | some i => .done i (s.setInode i { s.inode i with inum := inum, ref := 1, valid := false })
    | none => .stop "iget: no inodes"

def idup (i : Fin NINODE) : State := s.setInode i { s.inode i with ref := (s.inode i).ref+1 }

def acquiresleep {β : Type} (b : β) (i : Fin NINODE) : Outcome State β :=
  if (s.inode i).lock.isSome then .wait
  else .done b (s.setInode i { s.inode i with lock := some p })

def load (i : Fin NINODE) : Outcome State Unit :=
  if (s.inode i).valid then .done () s
  else
    let d := s.dinode (s.inode i).inum
    if d.type = 0 then .stop "ilock: no type"
    else .done () (s.setInode i { s.inode i with d := d, valid := true })

def put (i : Fin NINODE) : Outcome State Bool :=
  if (s.inode i).ref = 1 ∧ (s.inode i).valid ∧ (s.inode i).d.nlink = 0 then
    acquiresleep p s true i
  else
    .done false (s.setInode i { s.inode i with ref := (s.inode i).ref-1 })

def lookup (i : Fin NINODE) (name : Name) : Outcome State (Option (ℕ × ℕ)) :=
  let ip := s.inode i
  if ip.d.type ≠ T_DIR then .stop "dirlookup not DIR"
  else
    match findEntry (s.data ip.inum) ip.d.size name ip.d.entries 0 with
    | none => .stop "dirlookup read"
    | some r => .done r s

def writeAt (i : Fin NINODE) (bytes : ℕ → UInt8) (off n : ℕ) : Option ℕ × State :=
  let ip := s.inode i
  let (r, d, data) := writei x.ok ip.d (s.data ip.inum) bytes off n
  (r, if r.isSome then (s.setData ip.inum data).iupdate i d else s)

def link (i : Fin NINODE) (name : Name) (inum : ℕ) : Outcome State Bool :=
  let ip := s.inode i
  match findEmpty (s.data ip.inum) ip.d.size ip.d.entries 0 with
  | none => .stop "dirlink read"
  | some off =>
    let (r, s) := writeAt x s i (direntBytes name inum) off DIRENTSIZE
    .done (r = some DIRENTSIZE) s

def filealloc : Outcome State (Option (Fin NFILE)) :=
  match fileIndices.find? fun f => (s.file f).ref = 0 with
  | none => .done none s
  | some f => .done (some f) (s.setFile f { s.file f with ref := 1 })

def setFd (fd : Fin NOFILE) (f : Option (Fin NFILE)) : State :=
  s.setProc p { s.proc p with ofile := update (s.proc p).ofile fd f }

def fdalloc (f : Fin NFILE) : Outcome State (Option (Fin NOFILE)) :=
  match fdIndices.find? fun fd => (s.proc p).ofile fd = none with
  | none => .done none s
  | some fd => .done (some fd) (setFd p s fd (some f))

/-- The fields that `sys_open` sets. -/
def openedFile (fl : OpenFile) (i : Fin NINODE) (d : Dnode) (omode : ℕ) : OpenFile :=
  { fl with
    type := if d.type = T_DEVICE then .FD_DEVICE else .FD_INODE
    major := if d.type = T_DEVICE then d.major else fl.major
    off := if d.type = T_DEVICE then fl.off else 0
    ip := i
    readable := !hasFlag omode O_WRONLY
    writable := hasFlag omode O_WRONLY || hasFlag omode O_RDWR }

def dropFile (f : Fin NFILE) : Outcome State (Option (Fin NINODE)) :=
  let fl := s.file f
  if fl.ref < 1 then .stop "fileclose"
  else if fl.ref > 1 then .done none (s.setFile f { fl with ref := fl.ref-1 })
  else .done (if fl.type = .FD_INODE ∨ fl.type = .FD_DEVICE then some fl.ip else none)
    (s.setFile f { fl with ref := 0, type := .FD_NONE })

def dupFile (fd : Fin NOFILE) : Outcome State (Option (Fin NOFILE)) :=
  match (s.proc p).ofile fd with
  | none => .done none s
  | some f =>
    match fdalloc p s f with
    | .done (some fd') s =>
      if (s.file f).ref < 1 then .stop "filedup"
      else .done (some fd') (s.setFile f { s.file f with ref := (s.file f).ref+1 })
    | r => r

/-- The loop of `kfork` over the descriptors `fds`. -/
def forkFiles (np : Fin NPROC) : List (Fin NOFILE) → State → Outcome State Unit
  | [], s => .done () s
  | fd :: fds, s =>
    match (s.proc p).ofile fd with
    | none => forkFiles np fds s
    | some f =>
      if (s.file f).ref < 1 then .stop "filedup"
      else forkFiles np fds
        (setFd np (s.setFile f { s.file f with ref := (s.file f).ref+1 }) fd (some f))

def fork (np : Fin NPROC) : Outcome State Unit :=
  if (s.proc np).cwd = none ∧ ∀ fd, (s.proc np).ofile fd = none then
    match forkFiles p np fdIndices s with
    | .done _ s =>
      match (s.proc p).cwd with
      | none => .stop "kerneltrap"
      | some i => .done () ((idup s i).setProc np { s.proc np with cwd := some i })
    | r => r
  else .wait

/-- One operation of process `p`. -/
def exec : {β : Type} → Op β → Choice → State → Outcome State β
  | _, .iget inum, _, s => iget s inum
  | _, .igetNew inum, _, s => iget s inum
  | _, .dupCwd, _, s =>
    match (s.proc p).cwd with
    | none => .stop "kerneltrap"
    | some i => .done i (idup s i)
  | _, .acquire i _, _, s => if (s.inode i).ref < 1 then .stop "ilock" else acquiresleep p s () i
  | _, .load i, _, s => load s i
  | _, .unlock i, _, s =>
    if (s.inode i).lock ≠ some p ∨ (s.inode i).ref < 1 then .stop "iunlock"
    else .done () (s.setInode i { s.inode i with lock := none })
  | _, .put i, _, s => put p s i
  | _, .itrunc i, _, s =>
    .done () ((s.setData (s.inode i).inum fun _ => 0).iupdate i { (s.inode i).d with size := 0 })
  | _, .free i, _, s => .done () (s.iupdate i { (s.inode i).d with type := 0 })
  | _, .invalidate i, _, s =>
    .done () (s.setInode i { s.inode i with valid := false, lock := none })
  | _, .drop i, _, s => .done () (s.setInode i { s.inode i with ref := (s.inode i).ref-1 })
  | _, .fields i, _, s => .done (s.inode i).d s
  | _, .inum i, _, s => .done (s.inode i).inum s
  | _, .lookup i name, _, s => lookup s i name
  | _, .link i name inum, x, s => link x s i name inum
  | _, .isdirempty i, _, s =>
    let ip := s.inode i
    match allEmpty (s.data ip.inum) ip.d.size (ip.d.entries-2) (2*DIRENTSIZE) with
    | none => .stop "isdirempty: readi"
    | some r => .done r s
  | _, .change i c, _, s => .done () (s.iupdate i (c.apply (s.inode i).d))
  | _, .erase i off, x, s =>
    let (r, s) := writeAt x s i (fun _ => 0) off DIRENTSIZE
    .done (r = some DIRENTSIZE) s
  | _, .ialloc _ type, x, s =>
    -- the buffer is released between the inodes, so those that were passed may be free by now
    match findFree s.dinode (s.ninodes-(x.passed+1)) (x.passed+1) with
    | none => .done none s
    | some inum =>
      .done (some inum) { s with dinode := update s.dinode inum ⟨type, 0, 0, 0, 0⟩ }
  | _, .write f i bytes n, x, s =>
    let (r, s) := writeAt x s i bytes (s.file f).off n
    .done r (s.setFile f { s.file f with off := (s.file f).off+r.getD 0 })
  | _, .read f i n, x, s =>
    let r := if x.ok 0 then readLength (s.inode i).d (s.file f).off n else 0
    .done () (s.setFile f { s.file f with off := ((s.file f).off+r) % 2^32 })
  | _, .readi i off n, _, s => .done (readLength (s.inode i).d off n) s
  | _, .filealloc, _, s => filealloc s
  | _, .fdalloc f, _, s => fdalloc p s f
  | _, .openFile f i d omode, _, s => .done () (s.setFile f (openedFile (s.file f) i d omode))
  | _, .dropFile f, _, s => dropFile s f
  | _, .argFile fd, _, s => .done ((s.proc p).ofile fd) s
  | _, .takeFile fd, _, s => .done ((s.proc p).ofile fd) (setFd p s fd none)
  | _, .dupFile fd, _, s => dupFile p s fd
  | _, .fileFields f, _, s => .done (s.file f) s
  | _, .exitFile fd, _, s => .done ((s.proc p).ofile fd) s
  | _, .clearFd fd, _, s => .done () (setFd p s fd none)
  | _, .takeCwd, _, s =>
    match (s.proc p).cwd with
    | none => .stop "kerneltrap"
    | some i => .done i s
  | _, .setCwd i, _, s => .done () (s.setProc p { s.proc p with cwd := i })
  | _, .fork np, _, s => fork p s np
  | _, .panic msg, _, _ => .stop msg

theorem exec_erase (i : Fin NINODE) (off : ℕ) : exec p (.erase i off) x s =
    .done ((writeAt x s i (fun _ => 0) off DIRENTSIZE).1 = some DIRENTSIZE)
      (writeAt x s i (fun _ => 0) off DIRENTSIZE).2 := by
  simp only [exec]

end Exec

/-! ## System calls -/

abbrev Call := Interleaving.Prog Op

def ilockIn (new : Option (Fin NINODE)) (i : Fin NINODE) : Call Unit := do
  Op.acquire i new
  Op.load i

def ilock (i : Fin NINODE) : Call Unit := ilockIn none i

def iput (i : Fin NINODE) : Call Unit := do
  let last ← Op.put i
  if last then do
    Op.itrunc i
    Op.free i
    Op.invalidate i
    Op.drop i
  else
    return

def iunlockput (i : Fin NINODE) : Call Unit := do
  Op.unlock i
  iput i

/-- `dirlookup`: the entry's inode, with a reference, and its offset. -/
def dirlookup (i : Fin NINODE) (name : Name) : Call (Option (Fin NINODE × ℕ)) := do
  let r ← Op.lookup i name
  match r with
  | none => return none
  | some (inum, off) => do
    let ip ← Op.iget inum
    return some (ip, off)

def dirlink (i : Fin NINODE) (name : Name) (inum : ℕ) : Call Bool := do
  let found ← dirlookup i name
  match found with
  | some (ip, _) => do
    iput ip
    return false
  | none => Op.link i name inum

/-- `ialloc` in directory `dp`. -/
def ialloc (dp : Fin NINODE) (type : ℕ) : Call (Option (Fin NINODE)) := do
  let r ← Op.ialloc dp type
  match r with
  | none => return none
  | some inum => do
    let ip ← Op.igetNew inum
    return some ip

/-- The loop of `namex` over the path elements; it returns the inode, and with `parent` the last
element. -/
def namexLoop (parent : Bool) : List Name → Fin NINODE → Call (Option (Fin NINODE × Name))
  | [], ip =>
    if parent then do
      iput ip
      return none
    else
      return some (ip, [])
  | name :: rest, ip => do
    ilock ip
    let d ← Op.fields ip
    if d.type ≠ T_DIR then do
      iunlockput ip
      return none
    else if parent && rest.isEmpty then do
      Op.unlock ip
      return some (ip, name)
    else do
      let next ← dirlookup ip name
      match next with
      | none => do
        iunlockput ip
        return none
      | some (next, _) => do
        iunlockput ip
        namexLoop parent rest next

def namex (parent : Bool) (path : List UInt8) : Call (Option (Fin NINODE × Name)) := do
  if path.head? = some slash then do
    let ip ← Op.iget ROOTINO
    namexLoop parent (pathElems path.length path) ip
  else do
    let ip ← Op.dupCwd
    namexLoop parent (pathElems path.length path) ip

def namei (path : List UInt8) : Call (Option (Fin NINODE)) := do
  let r ← namex false path
  return r.map Prod.fst

def nameiparent (path : List UInt8) : Call (Option (Fin NINODE × Name)) := namex true path

def linkBad (ip : Fin NINODE) : Call Unit := do
  ilock ip
  Op.change ip .decLink
  iunlockput ip

def linkIn (ip : Fin NINODE) (new : List UInt8) : Call Unit := do
  let dp ← nameiparent new
  match dp with
  | none => linkBad ip
  | some (dp, name) => do
    ilock dp
    let inum ← Op.inum ip
    let ok ← dirlink dp name inum
    iunlockput dp
    if ok then
      iput ip
    else
      linkBad ip

def sysLink (old new : List UInt8) : Call Unit := do
  let ip ← namei old
  match ip with
  | none => return
  | some ip => do
    ilock ip
    let d ← Op.fields ip
    if d.type = T_DIR then
      iunlockput ip
    else do
      Op.change ip .incLink
      Op.unlock ip
      linkIn ip new

def unlinkDone (type : ℕ) (dp ip : Fin NINODE) : Call Unit := do
  (if type = T_DIR then Op.change dp .decLink else pure () : Call Unit)
  iunlockput dp
  Op.change ip .decLink
  iunlockput ip

/-- `sys_unlink` once the entry at `off` of `dp` and its inode `ip` are found and locked. -/
def unlinkFound (dp ip : Fin NINODE) (off : ℕ) : Call Unit := do
  let d ← Op.fields ip
  if short d.nlink < 1 then
    Op.panic "unlink: nlink < 1"
  else do
    let empty ← (if d.type = T_DIR then Op.isdirempty ip else pure true : Call Bool)
    if empty then do
      let ok ← Op.erase dp off
      if ok then unlinkDone d.type dp ip else Op.panic "unlink: writei"
    else do
      iunlockput ip
      iunlockput dp

def sysUnlink (path : List UInt8) : Call Unit := do
  let dp ← nameiparent path
  match dp with
  | none => return
  | some (dp, name) => do
    ilock dp
    if name = dot ∨ name = dotdot then
      iunlockput dp
    else do
      let found ← dirlookup dp name
      match found with
      | none => iunlockput dp
      | some (ip, off) => do
        ilock ip
        unlinkFound dp ip off

/-- `fail` in `create`. -/
def createFail (dp ip : Fin NINODE) : Call (Option (Fin NINODE)) := do
  Op.change ip .noLinks
  iunlockput ip
  iunlockput dp
  return none

def createDots (type : ℕ) (dp ip : Fin NINODE) : Call Bool :=
  if type = T_DIR then do
    let inum ← Op.inum ip
    let ok ← dirlink ip dot inum
    if ok then do
      let dpnum ← Op.inum dp
      dirlink ip dotdot dpnum
    else
      return false
  else
    return true

def createDone (type : ℕ) (dp ip : Fin NINODE) : Call (Option (Fin NINODE)) := do
  (if type = T_DIR then Op.change dp .incLink else pure () : Call Unit)
  iunlockput dp
  return some ip

def createNew (type major minor : ℕ) (dp : Fin NINODE) (name : Name) (ip : Fin NINODE) :
    Call (Option (Fin NINODE)) := do
  ilockIn (some dp) ip
  Op.change ip (.fresh major minor)
  let ok ← createDots type dp ip
  if ok then do
    let inum ← Op.inum ip
    let ok ← dirlink dp name inum
    if ok then createDone type dp ip else createFail dp ip
  else
    createFail dp ip

/-- `create`: a locked inode. -/
def create (path : List UInt8) (type major minor : ℕ) : Call (Option (Fin NINODE)) := do
  let dp ← nameiparent path
  match dp with
  | none => return none
  | some (dp, name) => do
    ilock dp
    let found ← dirlookup dp name
    match found with
    | some (ip, _) => do
      iunlockput dp
      ilock ip
      let d ← Op.fields ip
      if type = T_FILE ∧ (d.type = T_FILE ∨ d.type = T_DEVICE) then
        return some ip
      else do
        iunlockput ip
        return none
    | none => do
      let ip ← ialloc dp type
      match ip with
      | none => do
        iunlockput dp
        return none
      | some ip => createNew type major minor dp name ip

def fileclose (f : Fin NFILE) : Call Unit := do
  let ip ← Op.dropFile f
  match ip with
  | none => return
  | some ip => iput ip

def sysClose (fd : Fin NOFILE) : Call Unit := do
  let f ← Op.takeFile fd
  match f with
  | none => return
  | some f => fileclose f

def sysDup (fd : Fin NOFILE) : Call Unit := do
  let _ ← Op.dupFile fd
  return

/-- `sys_open` from the point where `ip` is locked. -/
def openInode (omode : ℕ) (ip : Fin NINODE) : Call Unit := do
  let d ← Op.fields ip
  if d.type = T_DEVICE ∧ (short d.major < 0 ∨ short d.major ≥ NDEV) then
    iunlockput ip
  else do
    let f ← Op.filealloc
    match f with
    | none => iunlockput ip
    | some f => do
      let fd ← Op.fdalloc f
      match fd with
      | none => do
        fileclose f
        iunlockput ip
      | some _ => do
        Op.openFile f ip d omode
        (if hasFlag omode O_TRUNC ∧ d.type = T_FILE then Op.itrunc ip else pure () : Call Unit)
        Op.unlock ip

def sysOpen (path : List UInt8) (omode : ℕ) : Call Unit := do
  if hasFlag omode O_CREATE then do
    let ip ← create path T_FILE 0 0
    match ip with
    | none => return
    | some ip => openInode omode ip
  else do
    let ip ← namei path
    match ip with
    | none => return
    | some ip => do
      ilock ip
      let d ← Op.fields ip
      if d.type = T_DIR ∧ omode ≠ O_RDONLY then
        iunlockput ip
      else
        openInode omode ip

def sysCreate (path : List UInt8) (type major minor : ℕ) : Call Unit := do
  let ip ← create path type major minor
  match ip with
  | none => return
  | some ip => iunlockput ip

def sysMkdir (path : List UInt8) : Call Unit := sysCreate path T_DIR 0 0

def sysMknod (path : List UInt8) (major minor : ℕ) : Call Unit :=
  sysCreate path T_DEVICE major minor

def sysChdir (path : List UInt8) : Call Unit := do
  let ip ← namei path
  match ip with
  | none => return
  | some ip => do
    ilock ip
    let d ← Op.fields ip
    if d.type ≠ T_DIR then
      iunlockput ip
    else do
      Op.unlock ip
      let cwd ← Op.takeCwd
      iput cwd
      Op.setCwd (some ip)

def sysRead (fd : Fin NOFILE) (n : ℕ) : Call Unit := do
  let f ← Op.argFile fd
  match f with
  | none => return
  | some f => do
    let fl ← Op.fileFields f
    if fl.readable ∧ fl.type = .FD_INODE then do
      ilock fl.ip
      Op.read f fl.ip n
      Op.unlock fl.ip
    else
      return

def sysFstat (fd : Fin NOFILE) : Call Unit := do
  let f ← Op.argFile fd
  match f with
  | none => return
  | some f => do
    let fl ← Op.fileFields f
    if fl.type = .FD_INODE ∨ fl.type = .FD_DEVICE then do
      ilock fl.ip
      Op.unlock fl.ip
    else
      return

def writeFile (f : Fin NFILE) (ip : Fin NINODE) (bytes : ℕ → UInt8) : ℕ → ℕ → ℕ → Call Unit
  | 0, _, _ => return
  | fuel+1, i, n =>
    if i < n then do
      let n1 := min (n-i) maxWrite
      ilock ip
      let r ← Op.write f ip (fun k => bytes (i+k)) n1
      Op.unlock ip
      if r = some n1 then writeFile f ip bytes fuel (i+n1) n else return
    else
      return

def sysWrite (fd : Fin NOFILE) (bytes : ℕ → UInt8) (n : ℕ) : Call Unit := do
  let f ← Op.argFile fd
  match f with
  | none => return
  | some f => do
    let fl ← Op.fileFields f
    if fl.writable ∧ fl.type = .FD_INODE then
      writeFile f fl.ip bytes n 0 n
    else
      return

/-- The reads of `kexec`, which are the ranges `reads`. -/
def execReads (ip : Fin NINODE) : List (ℕ × ℕ) → Call Unit
  | [] => return
  | (off, n) :: reads => do
    let _ ← Op.readi ip off n
    execReads ip reads

def sysExec (path : List UInt8) (reads : List (ℕ × ℕ)) : Call Unit := do
  let ip ← namei path
  match ip with
  | none => return
  | some ip => do
    ilock ip
    execReads ip reads
    iunlockput ip

def sysFork (np : Fin NPROC) : Call Unit := Op.fork np

def exitFiles : List (Fin NOFILE) → Call Unit
  | [] => return
  | fd :: fds => do
    let f ← Op.exitFile fd
    match f with
    | none => exitFiles fds
    | some f => do
      fileclose f
      Op.clearFd fd
      exitFiles fds

def sysExit : Call Unit := do
  exitFiles fdIndices
  let cwd ← Op.takeCwd
  iput cwd
  Op.setCwd none

/-- The system calls on files. -/
inductive Syscall where
  | link (old new : List UInt8)
  | unlink (path : List UInt8)
  | open (path : List UInt8) (omode : ℕ)
  | mkdir (path : List UInt8)
  | mknod (path : List UInt8) (major minor : ℕ)
  | chdir (path : List UInt8)
  | read (fd : Fin NOFILE) (n : ℕ)
  | write (fd : Fin NOFILE) (bytes : ℕ → UInt8) (n : ℕ)
  | fstat (fd : Fin NOFILE)
  | dup (fd : Fin NOFILE)
  | close (fd : Fin NOFILE)
  | exec (path : List UInt8) (reads : List (ℕ × ℕ))
  | fork (np : Fin NPROC)
  | exit

def Syscall.prog : Syscall → Call Unit
  | .link old new => sysLink old new
  | .unlink path => sysUnlink path
  | .open path omode => sysOpen path omode
  | .mkdir path => sysMkdir path
  | .mknod path major minor => sysMknod path major minor
  | .chdir path => sysChdir path
  | .read fd n => sysRead fd n
  | .write fd bytes n => sysWrite fd bytes n
  | .fstat fd => sysFstat fd
  | .dup fd => sysDup fd
  | .close fd => sysClose fd
  | .exec path reads => sysExec path reads
  | .fork np => sysFork np
  | .exit => sysExit

abbrev System := Config Op State (Fin NPROC)

inductive Event where
  | call (p : Fin NPROC) (c : Syscall)
  | go (p : Fin NPROC) (x : Choice)

/-- A process that exists makes a system call, or one in a system call goes on. -/
def System.step (c : System) : Event → System
  | .call p call => if (c.state.proc p).cwd.isSome then c.start p call.prog else c
  | .go p x => Config.step exec c p x

def System.run (c : System) (es : List Event) : System := es.foldl System.step c

end Xv6.Inodes
