import Xv6.BioCache

/-! The redo log, kernel/log.c: transactions, commit and recovery. -/
namespace Xv6
open ByteFields

/-- `hb->n = log.lh.n` and the loop over `hb->block[i] = log.lh.block[i]`; the bytes behind
the last entry keep their old values. -/
def setHeadFrom (h : Block) (i : ℕ) : List ℕ → Block
  | [] => h
  | b :: bs => setHeadFrom (setLE h (4+4*i) 4 b) (i+1) bs

def setHead (h : Block) (lh : List ℕ) : Block :=
  setHeadFrom (setLE h 0 4 lh.length) 0 lh

/-- The number of entries in a header block; `n` is an int, so that a loop up to a value of
2^31 or more does not run at all. -/
def headLength (h : Block) : ℕ :=
  if getLE h 0 4 < 2^31 then getLE h 0 4 else 0

def headEntries (h : Block) : List ℕ :=
  (List.range (headLength h)).map fun i => getLE h (4+4*i) 4

def setLh (lh : List ℕ) : Kern Unit :=
  modify fun m => { m with log := { m.log with lh := lh } }

/-- The loop body of `install_trans`, for the entry `log.lh.block[tail] = b`. -/
def installBlock (p : ℕ) (recovering : Bool) (tail b : ℕ) : Kern Unit := do
  let m ← get
  let lbuf ← bread p m.log.dev (m.log.start+tail+1)
  let dbuf ← bread p m.log.dev b
  let m ← get
  setData dbuf (m.buf lbuf).data
  bwrite p dbuf
  (if recovering then pure () else bunpin dbuf)
  brelse p lbuf
  brelse p dbuf

def installTransFrom (p : ℕ) (recovering : Bool) (tail : ℕ) : List ℕ → Kern Unit
  | [] => return
  | b :: bs => do
    installBlock p recovering tail b
    installTransFrom p recovering (tail+1) bs

def installTrans (p : ℕ) (recovering : Bool) : Kern Unit := do
  let m ← get
  installTransFrom p recovering 0 m.log.lh

def readHead (p : ℕ) : Kern Unit := do
  let m ← get
  let buf ← bread p m.log.dev m.log.start
  let m ← get
  setLh (headEntries (m.buf buf).data)
  brelse p buf

def writeHead (p : ℕ) : Kern Unit := do
  let m ← get
  let buf ← bread p m.log.dev m.log.start
  let m ← get
  setData buf (setHead (m.buf buf).data m.log.lh)
  bwrite p buf
  brelse p buf

def recoverFromLog (p : ℕ) : Kern Unit := do
  readHead p
  installTrans p true
  setLh []
  writeHead p

def initlog (p dev start : ℕ) : Kern Unit := do
  modify fun m => { m with log := { m.log with start := start, dev := dev } }
  recoverFromLog p

/-- The loop body of `write_log`, for the entry `log.lh.block[tail] = b`. -/
def writeLogBlock (p tail b : ℕ) : Kern Unit := do
  let m ← get
  let tbuf ← bread p m.log.dev (m.log.start+tail+1)
  let fbuf ← bread p m.log.dev b
  let m ← get
  setData tbuf (m.buf fbuf).data
  bwrite p tbuf
  brelse p fbuf
  brelse p tbuf

def writeLogFrom (p tail : ℕ) : List ℕ → Kern Unit
  | [] => return
  | b :: bs => do
    writeLogBlock p tail b
    writeLogFrom p (tail+1) bs

def writeLog (p : ℕ) : Kern Unit := do
  let m ← get
  writeLogFrom p 0 m.log.lh

def commit (p : ℕ) : Kern Unit := do
  let m ← get
  if m.log.lh.length > 0 then
    writeLog p
    writeHead p
    installTrans p false
    setLh []
    writeHead p

/-- `begin_op`: while a commit runs or the log may run out of space the caller sleeps. -/
def beginOp : Kern Unit := do
  let m ← get
  if m.log.committing then
    throw .asleep
  else if m.log.lh.length+(m.log.outstanding+1)*MAXOPBLOCKS > LOGBLOCKS then
    throw .asleep
  else
    modify fun m => { m with log := { m.log with outstanding := m.log.outstanding+1 } }

def endOp (p : ℕ) : Kern Unit := do
  modify fun m => { m with log := { m.log with outstanding := m.log.outstanding-1 } }
  let m ← get
  if m.log.committing then
    throw (.panic "log.committing")
  else if m.log.outstanding = 0 then
    modify fun m => { m with log := { m.log with committing := true } }
    commit p
    modify fun m => { m with log := { m.log with committing := false } }

def logWrite (i : Fin NBUF) : Kern Unit := do
  let m ← get
  if m.log.lh.length ≥ LOGBLOCKS then
    throw (.panic "too big a transaction")
  else if m.log.outstanding < 1 then
    throw (.panic "log_write outside of trans")
  else if (m.buf i).blockno ∈ m.log.lh then
    -- log absorption
    return
  else
    bpin i
    setLh (m.log.lh ++ [(m.buf i).blockno])

end Xv6
