import Xv6.DiskBlock
import Xv6.StateOutcome

/-! The buffer cache, kernel/bio.c. A buffer is its index in `bcache.buf`, and the list through
`prev` and `next` is `lru`, the most recently used first. -/
namespace Xv6
open ByteFields

structure Buf where
  valid : Bool
  dev : ℕ
  blockno : ℕ
  /-- The process that holds the buffer's sleep-lock. -/
  lock : Option ℕ
  refcnt : ℕ
  data : Block

/-- `struct log`; `lh` is `log.lh.block[0..log.lh.n)`. -/
structure Log where
  start : ℕ
  outstanding : ℕ
  committing : Bool
  dev : ℕ
  lh : List ℕ

structure Machine where
  buf : Fin NBUF → Buf
  lru : List (Fin NBUF)
  log : Log
  disk : ℕ → Block
  /-- Every single-block write so far, in the order in which the disk took them. -/
  writes : List (ℕ × Block)

abbrev Kern := EStateM Halt Machine

def Machine.setBuf (m : Machine) (i : Fin NBUF) (b : Buf) : Machine :=
  { m with buf := Function.update m.buf i b }

def modBuf (i : Fin NBUF) (f : Buf → Buf) : Kern Unit :=
  modify fun m => m.setBuf i (f (m.buf i))

/-- `acquiresleep(&b->lock)`. In a run of one thread a lock that is taken is never given
back while the thread waits for it. -/
def acquiresleep (p : ℕ) (i : Fin NBUF) : Kern Unit := do
  let m ← get
  match (m.buf i).lock with
  | some _ => throw .asleep
  | none => modBuf i fun b => { b with lock := some p }

def holdingsleep (p : ℕ) (i : Fin NBUF) : Kern Bool := do
  let m ← get
  return (m.buf i).lock == some p

def virtioDiskRead (i : Fin NBUF) : Kern Unit :=
  modify fun m => m.setBuf i { m.buf i with data := m.disk (m.buf i).blockno }

def virtioDiskWrite (i : Fin NBUF) : Kern Unit :=
  modify fun m => { m with
    disk := writeBlock m.disk ((m.buf i).blockno, (m.buf i).data)
    writes := m.writes ++ [((m.buf i).blockno, (m.buf i).data)] }

def cachedIn (m : Machine) (dev blockno : ℕ) (i : Fin NBUF) : Bool :=
  (m.buf i).dev == dev && (m.buf i).blockno == blockno

def bget (p dev blockno : ℕ) : Kern (Fin NBUF) := do
  let m ← get
  match m.lru.find? (cachedIn m dev blockno) with
  | some i =>
    modBuf i fun b => { b with refcnt := b.refcnt+1 }
    acquiresleep p i
    return i
  | none =>
    -- not cached: recycle the least recently used unused buffer
    match m.lru.reverse.find? fun i => (m.buf i).refcnt == 0 with
    | some i =>
      modBuf i fun b => { b with dev := dev, blockno := blockno, valid := false, refcnt := 1 }
      acquiresleep p i
      return i
    | none => throw (.panic "bget: no buffers")

def bread (p dev blockno : ℕ) : Kern (Fin NBUF) := do
  let i ← bget p dev blockno
  let m ← get
  if !(m.buf i).valid then
    virtioDiskRead i
    modBuf i fun b => { b with valid := true }
  return i

def bwrite (p : ℕ) (i : Fin NBUF) : Kern Unit := do
  if !(← holdingsleep p i) then throw (.panic "bwrite")
  virtioDiskWrite i

def brelse (p : ℕ) (i : Fin NBUF) : Kern Unit := do
  if !(← holdingsleep p i) then throw (.panic "brelse")
  modBuf i fun b => { b with lock := none }
  modBuf i fun b => { b with refcnt := b.refcnt-1 }
  modify fun m => if (m.buf i).refcnt = 0 then { m with lru := i :: m.lru.erase i } else m

def bpin (i : Fin NBUF) : Kern Unit :=
  modBuf i fun b => { b with refcnt := b.refcnt+1 }

def bunpin (i : Fin NBUF) : Kern Unit :=
  modBuf i fun b => { b with refcnt := b.refcnt-1 }

/-- `memmove(b->data, src, BSIZE)` on a buffer the caller has locked. -/
def setData (i : Fin NBUF) (v : Block) : Kern Unit :=
  modBuf i fun b => { b with data := v }

end Xv6
