import Xv6.ByteFields
import Xv6.SpinThreads
import Xv6.ProcTable

/-! The kernel threads of the processes: sleeping and waking, killing, fork, exit and wait of
kernel/proc.c, kernel/pipe.c, `sys_pause` of kernel/sysproc.c, kernel/console.c and `clockintr` of
kernel/trap.c. Each slot of the process table has one thread. Where a process is off its CPU, the
thread does what the schedulers do with the slot: one gives back `p->lock` after `swtch`, and one
takes it, finds the process `RUNNABLE` and makes it `RUNNING`. A panic is a step that is not
possible. In user space a process stores what it likes in its memory, so that what `kfork` and
`exec` put there is left open. `Event`s are recorded and never read. -/
namespace Xv6.Threads

abbrev PIPESIZE : UInt32 := 512
abbrev INPUT_BUF_SIZE : UInt32 := 128

/-- The spin locks. `other n` is any other lock that is used with `sleep`. -/
inductive LockId where
  | proc (p : Fin NPROC) | wait | pipe | ticks | cons | other (n : ℕ)
  deriving DecidableEq

/-- The addresses used as channels. `other n k` is the `k`-th channel that goes with the lock
`other n`. -/
inductive Chan where
  | null | proc (p : Fin NPROC) | nread | nwrite | ticks | cons | other (n k : ℕ)
  deriving DecidableEq

/-- The fields of `struct proc` that `p->lock` and `wait_lock` protect. -/
structure Task where
  state : ProcState
  chan : Chan
  killed : Bool
  xstate : Int32
  pid : Int32
  parent : Option (Fin NPROC)
  deriving DecidableEq

/-- `struct pipe`. -/
structure PipeBuf where
  data : ℕ → UInt8
  nread : UInt32
  nwrite : UInt32
  readopen : Bool
  writeopen : Bool

/-- The input buffer of the console. -/
structure ConsBuf where
  buf : ℕ → UInt8
  r : UInt32
  w : UInt32
  e : UInt32

/-- `struct sleeplock` without its spin lock. -/
structure SleepLock where
  locked : Bool
  pid : Int32

/-- What a process leaves user space for. -/
inductive Call where
  | fork | exit (status : Int32) | wait (addr : UInt64) | kill (pid : Int32) | fault | yield
  | pipewrite (addr : UInt64) (n : Int32) | piperead (addr : UInt64) (n : Int32)
  | pipeclose (writable : Bool)
  | pause (n : ℤ) | consoleread (addr : UInt64) (n : ℤ) | consoleintr (c : UInt8) | clockintr
  /-- Any other code that waits on the channel `other n k`, or that wakes it. -/
  | waitFor (n k : ℕ) | signal (n k : ℕ)
  deriving DecidableEq

inductive Event where
  /-- The process leaves user space. -/
  | called (p : Fin NPROC) (c : Call)
  /-- It is back from a system call, with `r` in `a0` and `bytes` in the buffer that it has named. -/
  | returned (p : Fin NPROC) (c : Call) (r : ℤ) (bytes : List UInt8)
  /-- A `copyout` to the process has failed. -/
  | badAddress (p : Fin NPROC)
  /-- `allocproc` gives the slot to a new process. -/
  | alloc (p : Fin NPROC) (pid : Int32)
  /-- `kfork` of `p` has its new process, and goes on to return `pid`. -/
  | forked (p : Fin NPROC) (pid : Int32)
  /-- `kkill(pid)` looks at a slot. -/
  | kkill (pid : Int32)
  | setkilled (p : Fin NPROC)
  /-- `killed` has answered 0. -/
  | notKilled (p : Fin NPROC)
  /-- The process puts a byte into the pipe, or takes one out of it. -/
  | put (p : Fin NPROC) (b : UInt8)
  | took (p : Fin NPROC) (b : UInt8)
  /-- A process that holds the lock of the channel looks whether it has to sleep. -/
  | tested (p : Fin NPROC) (chan : Chan)
  /-- A `wakeup` of the channel has come to its end. -/
  | woken (chan : Chan)
  | exit (p : Fin NPROC) (pid status : Int32)
  /-- `kwait` of `p` frees the child, whose parent is `parent`. -/
  | reaped (p child : Fin NPROC) (parent : Option (Fin NPROC)) (pid status : Int32)
  /-- `kwait` of `p` has found the zombie, but its `copyout` has failed. -/
  | waitFailed (p child : Fin NPROC)
  /-- The user of a sleep lock has it from `acquiresleep`, or goes on to give it back. -/
  | acquired (p : Fin NPROC) | releasing (p : Fin NPROC)
  /-- What `holdingsleep` has answered. -/
  | holding (p : Fin NPROC) (r : Bool)
  deriving DecidableEq

/-- Between the kernel and user space. -/
def Event.boundary : Event → Bool
  | .called .. | .returned .. | .badAddress _ => true
  | _ => false

structure Tasks where
  proc : Fin NPROC → Task
  initproc : Fin NPROC
  nextpid : Int32
  pipe : PipeBuf
  ticks : UInt32
  cons : ConsBuf
  slock : SleepLock
  /-- The memory of each process. -/
  mem : Fin NPROC → UInt64 → UInt8
  /-- What has happened, latest first. -/
  trace : List Event

/-- What is decided outside the modelled code. -/
inductive Choice where
  | call (c : Call)
  /-- A process stores a byte in its memory. -/
  | store (addr : UInt64) (b : UInt8)
  /-- Whether an allocation, a copy or a test of other data succeeds. -/
  | succeeds (ok : Bool)
  /-- A copy fails after `k` bytes. -/
  | copies (k : ℕ)
  /-- Whether a timer interrupt comes. -/
  | timer (comes : Bool)
  deriving DecidableEq

abbrev KCode := Code LockId Choice Tasks

namespace Tasks

def setProc (d : Tasks) (p : Fin NPROC) (f : Task → Task) : Tasks :=
  { d with proc := Function.update d.proc p (f (d.proc p)) }

def record (d : Tasks) (e : Event) : Tasks := { d with trace := e :: d.trace }

/-- The bytes go to the memory of the process, from `addr` on. -/
def store (d : Tasks) (p : Fin NPROC) (addr : UInt64) (bytes : List UInt8) : Tasks :=
  { d with mem := Function.update d.mem p fun a => bytes.getD (a-addr).toNat (d.mem p a) }

def load (d : Tasks) (p : Fin NPROC) (addr : UInt64) (n : ℕ) : List UInt8 :=
  (List.range n).map fun k => d.mem p (addr+.ofNat k)

@[simp] theorem setProc_self (d : Tasks) (p : Fin NPROC) (f : Task → Task) :
    (d.setProc p f).proc p = f (d.proc p) := Function.update_self ..

theorem setProc_of_ne (d : Tasks) {p q : Fin NPROC} (h : q ≠ p) (f : Task → Task) :
    (d.setProc p f).proc q = d.proc q := Function.update_of_ne h ..

end Tasks

open Code

def onProc (p : Fin NPROC) (f : Task → Task) : KCode Unit := write fun d => d.setProc p f

def succeeds : KCode Bool := access fun i d =>
  match i with
  | .succeeds ok => some (ok, d)
  | _ => none

/-- `copyin` of one byte; `none` is a bad address. -/
def copyin (p : Fin NPROC) (addr : UInt64) : KCode (Option UInt8) := access fun i d =>
  match i with
  | .succeeds ok => some (if ok then some (d.mem p addr) else none, d)
  | _ => none

/-- `copyout`. The pages before a bad one are written. -/
def copyout (p : Fin NPROC) (addr : UInt64) (bytes : List UInt8) : KCode Bool := access fun i d =>
  match i with
  | .succeeds true => some (true, d.store p addr bytes)
  | .copies k =>
    if k < bytes.length then some (false, (d.store p addr (bytes.take k)).record (.badAddress p))
    else none
  | _ => none

/-- All bytes are copied, or the address is bad after some of them. -/
theorem copyout_cases {p : Fin NPROC} {addr : UInt64} {bytes : List UInt8} {i : Choice} {ok : Bool}
    {d d' : Tasks} {f : Choice → Tasks → Option (Bool × Tasks)} (hc : copyout p addr bytes = access f)
    (h : f i d = some (ok, d')) : ok = true ∧ d' = d.store p addr bytes ∨
      ok = false ∧ ∃ k, d' = (d.store p addr (bytes.take k)).record (.badAddress p) := by
  cases hc
  cases i with
  | succeeds b =>
    cases b with
    | false => cases h
    | true =>
      cases h
      exact .inl ⟨rfl, rfl⟩
  | copies k =>
    obtain ⟨-, h⟩ := Option.ite_none_right_eq_some.mp h
    cases h
    exact .inr ⟨rfl, k, rfl⟩
  | _ => cases h

/-- `for(p = proc; p < &proc[NPROC]; p++)`. -/
def forEach (body : Fin NPROC → KCode Unit) : KCode Unit :=
  loop (fun i : ℕ =>
    if h : i < NPROC then do
      body ⟨i, h⟩
      pure (.inl (i+1))
    else pure (.inr ())) 0

/-- The same, until the body answers. -/
def forProcs {β : Type} (body : Fin NPROC → KCode (Option β)) : KCode (Option β) :=
  loop (fun i : ℕ =>
    if h : i < NPROC then do
      let r ← body ⟨i, h⟩
      match r with
      | none => pure (.inl (i+1))
      | some b => pure (.inr (some b))
    else pure (.inr none)) 0

/-- What the schedulers do with a slot until one of them switches to its process. -/
def scheduler (p : Fin NPROC) : KCode Unit :=
  loop (fun _ : Unit => do
    lock (.proc p)
    let found ← access fun _ d =>
      if (d.proc p).state = .RUNNABLE then
        some (true, d.setProc p fun pr => { pr with state := .RUNNING })
      else some (false, d)
    if found then pure (.inr ())
    else do
      unlock (.proc p)
      pure (.inl ())) ()

/-- `sched`, up to the `swtch` back. The first `unlock` is the scheduler's, after the `swtch`. -/
def sched (p : Fin NPROC) : KCode Unit := do
  access fun _ d => if (d.proc p).state = .RUNNING then none else some ((), d)
  unlock (.proc p)
  scheduler p

def yield (p : Fin NPROC) : KCode Unit := do
  lock (.proc p)
  onProc p fun pr => { pr with state := .RUNNABLE }
  sched p
  unlock (.proc p)

def wakeup (self : Fin NPROC) (chan : Chan) : KCode Unit := do
  forEach fun p =>
    if p ≠ self then do
      lock (.proc p)
      write fun d =>
        if (d.proc p).state = .SLEEPING ∧ (d.proc p).chan = chan then
          d.setProc p fun pr => { pr with state := .RUNNABLE }
        else d
      unlock (.proc p)
    else pure ()
  write fun d => d.record (.woken chan)

def clockintr (p : Fin NPROC) : KCode Unit := do
  lock .ticks
  write fun d => { d with ticks := d.ticks+1 }
  wakeup p .ticks
  unlock .ticks

/-- Where a thread holds no lock, timer interrupts can come: `kerneltrap` yields. -/
def preempt (p : Fin NPROC) : KCode Unit :=
  loop (fun _ : Unit => do
    let comes ← access fun i d =>
      match i with
      | .timer comes => some (comes, d)
      | _ => none
    if comes then do
      clockintr p
      yield p
      pure (.inl ())
    else pure (.inr ())) ()

def sleep (p : Fin NPROC) (chan : Chan) (lk : LockId) : KCode Unit := do
  lock (.proc p)
  unlock lk
  onProc p fun pr => { pr with chan := chan, state := .SLEEPING }
  sched p
  onProc p fun pr => { pr with chan := .null }
  unlock (.proc p)
  preempt p
  lock lk

/-- `kkill` has found the process. -/
def Tasks.hit (d : Tasks) (p : Fin NPROC) : Tasks :=
  d.setProc p fun pr => { pr with
    killed := true
    state := if pr.state = .SLEEPING then .RUNNABLE else pr.state }

/-- One slot of `kkill`, and whether it has the pid. -/
def Tasks.kill (d : Tasks) (p : Fin NPROC) (pid : Int32) : Bool × Tasks :=
  if (d.proc p).pid = pid then (true, (d.record (.kkill pid)).hit p)
  else (false, d.record (.kkill pid))

theorem Tasks.hit_of_ne (d : Tasks) {p q : Fin NPROC} (h : q ≠ p) :
    (d.hit p).proc q = d.proc q :=
  Tasks.setProc_of_ne _ h _

def kkill (self : Fin NPROC) (pid : Int32) : KCode Int32 := do
  let r ← forProcs fun p => do
    preempt self
    lock (.proc p)
    let found ← access fun _ d => some (d.kill p pid)
    unlock (.proc p)
    if found then pure (some (0 : Int32)) else pure none
  pure (r.getD (-1))

def setkilled (p : Fin NPROC) : KCode Unit := do
  lock (.proc p)
  write fun d => (d.record (.setkilled p)).setProc p fun pr => { pr with killed := true }
  unlock (.proc p)

def killed (p : Fin NPROC) : KCode Bool := do
  lock (.proc p)
  let k ← access fun _ d =>
    if (d.proc p).killed then some (true, d) else some (false, d.record (.notKilled p))
  unlock (.proc p)
  pure k

namespace Tasks

def freeproc (d : Tasks) (p : Fin NPROC) : Tasks := d.setProc p fun _ =>
  { state := .UNUSED, chan := .null, killed := false, xstate := 0, pid := 0, parent := none }

/-- `allocpid`, and the new process in the slot. -/
def allocproc (d : Tasks) (p : Fin NPROC) : Tasks :=
  { (d.record (.alloc p d.nextpid)).setProc p fun pr =>
      { pr with pid := d.nextpid, state := .USED } with nextpid := d.nextpid+1 }

end Tasks

/-- The answer is the slot, with its lock held. -/
def allocproc (self : Fin NPROC) : KCode (Option (Fin NPROC)) := do
  let r ← forProcs fun p => do
    preempt self
    lock (.proc p)
    let state ← read fun d => (d.proc p).state
    if state = .UNUSED then pure (some p)
    else do
      unlock (.proc p)
      pure none
  match r with
  | none => pure none
  | some p => do
    write fun d => d.allocproc p
    let ok ← succeeds
    if ok then pure (some p)
    else do
      write fun d => d.freeproc p
      unlock (.proc p)
      pure none

def kfork (p : Fin NPROC) : KCode Int32 := do
  let np ← allocproc p
  match np with
  | none => pure (-1)
  | some np => do
    let ok ← succeeds
    if ok then do
      let pid ← access fun _ d => some ((d.proc np).pid, d.record (.forked p (d.proc np).pid))
      unlock (.proc np)
      preempt p
      lock .wait
      onProc np fun pr => { pr with parent := some p }
      unlock .wait
      preempt p
      lock (.proc np)
      onProc np fun pr => { pr with state := .RUNNABLE }
      unlock (.proc np)
      pure pid
    else do
      write fun d => d.freeproc np
      unlock (.proc np)
      pure (-1)

def reparent (p : Fin NPROC) : KCode Unit :=
  forEach fun pp => do
    let child ← access fun _ d =>
      if (d.proc pp).parent = some p then
        some (some d.initproc, d.setProc pp fun pr => { pr with parent := some d.initproc })
      else some (none, d)
    match child with
    | some initproc => wakeup p (.proc initproc)
    | none => pure ()

/-- The address of a process as a channel. -/
def Chan.ofParent (parent : Option (Fin NPROC)) : Chan := parent.elim .null .proc

/-- `kexit` from `acquire(&wait_lock)` on. What it closes before that, it closes by the calls
that the process could have made itself. The last `unlock` is the scheduler's. -/
def kexit (p : Fin NPROC) (status : Int32) : KCode Unit := do
  access fun _ d => if p = d.initproc then none else some ((), d)
  lock .wait
  reparent p
  let parent ← read fun d => (d.proc p).parent
  wakeup p (.ofParent parent)
  lock (.proc p)
  write fun d => (d.record (.exit p (d.proc p).pid status)).setProc p fun pr =>
    { pr with xstate := status, state := .ZOMBIE }
  unlock .wait
  unlock (.proc p)

/-- What one scan of `kwait` has found out. -/
inductive Scan where
  | reaped (pid : Int32) | copyFailed | kids (havekids : Bool)

/-- The bytes of an `int` in memory. -/
def intBytes (v : Int32) : List UInt8 :=
  (List.range 4).map (ByteFields.leByte v.toBitVec.toNat)

def kwaitScan (p : Fin NPROC) (addr : UInt64) : KCode Scan :=
  loop (fun s : ℕ × Bool =>
    if h : s.1 < NPROC then do
      let pp : Fin NPROC := ⟨s.1, h⟩
      let child ← read fun d => decide ((d.proc pp).parent = some p)
      if child then do
        lock (.proc pp)
        let state ← read fun d => (d.proc pp).state
        if state = .ZOMBIE then do
          let pid ← read fun d => (d.proc pp).pid
          let status ← read fun d => (d.proc pp).xstate
          let ok ← if addr ≠ 0 then copyout p addr (intBytes status) else pure true
          if ok then do
            write fun d =>
              (d.record (.reaped p pp (d.proc pp).parent pid status)).freeproc pp
            unlock (.proc pp)
            pure (.inr (.reaped pid))
          else do
            write fun d => d.record (.waitFailed p pp)
            unlock (.proc pp)
            pure (.inr .copyFailed)
        else do
          unlock (.proc pp)
          pure (.inl (s.1+1, true))
      else pure (.inl (s.1+1, s.2))
    else pure (.inr (.kids s.2))) (0, false)

def kwait (p : Fin NPROC) (addr : UInt64) : KCode Int32 := do
  lock .wait
  let r ← loop (fun _ : Unit => do
    write fun d => d.record (.tested p (.proc p))
    let scan ← kwaitScan p addr
    match scan with
    | .reaped pid => pure (.inr pid)
    | .copyFailed => pure (.inr (-1))
    | .kids havekids => do
      let stop ← if havekids then killed p else pure true
      if stop then pure (.inr (-1))
      else do
        sleep p (.proc p) .wait
        pure (.inl ())) ()
  unlock .wait
  pure r

namespace PipeBuf

def full (b : PipeBuf) : Bool := b.nwrite == b.nread+PIPESIZE
def empty (b : PipeBuf) : Bool := b.nread == b.nwrite

/-- `pi->data[pi->nwrite++ % PIPESIZE] = ch` -/
def put (b : PipeBuf) (ch : UInt8) : PipeBuf := { b with
  data := Function.update b.data (b.nwrite%PIPESIZE).toNat ch
  nwrite := b.nwrite+1 }

/-- `pi->data[pi->nread++ % PIPESIZE]` -/
def next (b : PipeBuf) : UInt8 := b.data (b.nread%PIPESIZE).toNat
def took (b : PipeBuf) : PipeBuf := { b with nread := b.nread+1 }

end PipeBuf

def pipeclose (p : Fin NPROC) (writable : Bool) : KCode Unit := do
  lock .pipe
  if writable then do
    write fun d => { d with pipe := { d.pipe with writeopen := false } }
    wakeup p .nread
  else do
    write fun d => { d with pipe := { d.pipe with readopen := false } }
    wakeup p .nwrite
  unlock .pipe

def pipewrite (pr : Fin NPROC) (addr : UInt64) (n : Int32) : KCode ℤ := do
  lock .pipe
  let r ← loop (fun i : ℕ =>
    if (i:ℤ) < n.toInt then do
      let readopen ← read fun d => d.pipe.readopen
      let stop ← if readopen then killed pr else pure true
      if stop then pure (.inr none)
      else do
        let full ← access fun _ d => some (d.pipe.full, d.record (.tested pr .nwrite))
        if full then do
          wakeup pr .nread
          sleep pr .nwrite .pipe
          pure (.inl i)
        else do
          let ch ← copyin pr (addr+.ofNat i)
          match ch with
          | none => pure (.inr (some i))
          | some ch => do
            write fun d => { d.record (.put pr ch) with pipe := d.pipe.put ch }
            pure (.inl (i+1))
    else pure (.inr (some i))) 0
  match r with
  | none => do
    unlock .pipe
    pure (-1)
  | some i => do
    wakeup pr .nread
    unlock .pipe
    pure i

/-- The loop of `piperead` that takes bytes out: how many it has delivered. -/
def pipereadCopy (pr : Fin NPROC) (addr : UInt64) (n : Int32) : KCode ℕ :=
  loop (fun i : ℕ =>
    if (i:ℤ) < n.toInt then do
      let ch ← access fun _ d =>
        if d.pipe.empty then some (none, d)
        else some (some d.pipe.next, { d.record (.took pr d.pipe.next) with pipe := d.pipe.took })
      match ch with
      | none => pure (.inr i)
      | some ch => do
        let ok ← copyout pr (addr+.ofNat i) [ch]
        if ok then pure (.inl (i+1)) else pure (.inr i)
    else pure (.inr i)) 0

def piperead (pr : Fin NPROC) (addr : UInt64) (n : Int32) : KCode ℤ := do
  lock .pipe
  let ready ← loop (fun _ : Unit => do
    let wait ← access fun _ d =>
      some (d.pipe.empty && d.pipe.writeopen, d.record (.tested pr .nread))
    if wait then do
      let stop ← killed pr
      if stop then pure (.inr false)
      else do
        sleep pr .nread .pipe
        pure (.inl ())
    else pure (.inr true)) ()
  if ready then do
    let i ← pipereadCopy pr addr n
    wakeup pr .nwrite
    unlock .pipe
    pure i
  else do
    unlock .pipe
    pure (-1)

def sysPause (p : Fin NPROC) (n : ℤ) : KCode ℤ := do
  let n := if n < 0 then 0 else n
  lock .ticks
  let ticks0 ← read fun d => d.ticks
  let r ← loop (fun _ : Unit => do
    let wait ← access fun _ d =>
      some (decide (((d.ticks-ticks0).toNat:ℤ) < n), d.record (.tested p .ticks))
    if wait then do
      let stop ← killed p
      if stop then pure (.inr (-1))
      else do
        sleep p .ticks .ticks
        pure (.inl ())
    else pure (.inr 0)) ()
  unlock .ticks
  pure r

/-- `C('D')`, `C('U')`, `C('H')`, and other characters that the console knows. -/
abbrev ctrlD : UInt8 := 4
abbrev ctrlU : UInt8 := 21
abbrev ctrlH : UInt8 := 8
abbrev ctrlP : UInt8 := 16
abbrev delete : UInt8 := 127
abbrev newline : UInt8 := 10
abbrev carriageReturn : UInt8 := 13

/-- The inner loop of `consoleread`: whether a character has come. -/
def consoleWait (p : Fin NPROC) : KCode Bool :=
  loop (fun _ : Unit => do
    let wait ← access fun _ d => some (d.cons.r == d.cons.w, d.record (.tested p .cons))
    if wait then do
      let stop ← killed p
      if stop then pure (.inr false)
      else do
        sleep p .cons .cons
        pure (.inl ())
    else pure (.inr true)) ()

def consoleread (p : Fin NPROC) (addr : UInt64) (target : ℤ) : KCode ℤ := do
  lock .cons
  let r ← loop (fun n : ℤ =>
    if 0 < n then do
      let ready ← consoleWait p
      if ready then do
        let c ← access fun _ d => some (d.cons.buf (d.cons.r%INPUT_BUF_SIZE).toNat,
          { d with cons := { d.cons with r := d.cons.r+1 } })
        if c = ctrlD then do
          if n < target then write fun d => { d with cons := { d.cons with r := d.cons.r-1 } }
          else pure ()
          pure (.inr (some n))
        else do
          let ok ← copyout p (addr+.ofNat (target-n).toNat) [c]
          if ok then
            if c = newline then pure (.inr (some (n-1))) else pure (.inl (n-1))
          else pure (.inr (some n))
      else pure (.inr none)
    else pure (.inr (some n))) target
  unlock .cons
  pure (r.elim (-1) (target-·))

namespace ConsBuf

/-- The loop of `C('U')`, which runs at most `fuel` times: `cons.e-cons.w` is enough. -/
def killLine : ℕ → ConsBuf → ConsBuf
  | 0, b => b
  | fuel+1, b =>
    if b.e ≠ b.w ∧ b.buf ((b.e-1)%INPUT_BUF_SIZE).toNat ≠ newline then
      killLine fuel { b with e := b.e-1 }
    else b

/-- The input of a character, and whether it completes a line. -/
def input (b : ConsBuf) (c : UInt8) : ConsBuf × Bool :=
  if c = ctrlP then (b, false)
  else if c = ctrlU then (b.killLine (b.e-b.w).toNat, false)
  else if c = ctrlH ∨ c = delete then (if b.e ≠ b.w then { b with e := b.e-1 } else b, false)
  else if c ≠ 0 ∧ b.e-b.r < INPUT_BUF_SIZE then
    let c := if c = carriageReturn then newline else c
    let b := { b with buf := Function.update b.buf (b.e%INPUT_BUF_SIZE).toNat c, e := b.e+1 }
    if c = newline ∨ c = ctrlD ∨ b.e-b.r = INPUT_BUF_SIZE then ({ b with w := b.e }, true)
    else (b, false)
  else (b, false)

end ConsBuf

def consoleintr (p : Fin NPROC) (c : UInt8) : KCode Unit := do
  lock .cons
  let line ← access fun _ d =>
    let r := d.cons.input c
    some (r.2, { d with cons := r.1 })
  if line then wakeup p .cons else pure ()
  unlock .cons

/-- Code that waits with `sleep` until a condition holds; the outcome of its tests is left open. -/
def waitFor (p : Fin NPROC) (n k : ℕ) : KCode Unit := do
  lock (.other n)
  loop (fun _ : Unit => do
    let holds ← access fun i d =>
      match i with
      | .succeeds ok => some (ok, d.record (.tested p (.other n k)))
      | _ => none
    if holds then pure (.inr ())
    else do
      sleep p (.other n k) (.other n)
      pure (.inl ())) ()
  unlock (.other n)

def signal (p : Fin NPROC) (n k : ℕ) : KCode Unit := do
  lock (.other n)
  wakeup p (.other n k)
  unlock (.other n)

/-- The calls after which the process goes on. A system call has a result, a trap has none. -/
def perform (p : Fin NPROC) : Call → KCode (Option ℤ)
  | .fork => do let r ← kfork p; pure (some r.toInt)
  | .exit _ => pure none
  | .wait addr => do let r ← kwait p addr; pure (some r.toInt)
  | .kill pid => do let r ← kkill p pid; pure (some r.toInt)
  | .fault => do setkilled p; pure none
  | .yield => do yield p; pure none
  | .pipewrite addr n => do let r ← pipewrite p addr n; pure (some r)
  | .piperead addr n => do let r ← piperead p addr n; pure (some r)
  | .pipeclose writable => do pipeclose p writable; pure (some 0)
  | .pause n => do let r ← sysPause p n; pure (some r)
  | .consoleread addr n => do let r ← consoleread p addr n; pure (some r)
  | .consoleintr c => do consoleintr p c; pure none
  | .clockintr => do clockintr p; pure none
  | .waitFor n k => do waitFor p n k; pure none
  | .signal n k => do signal p n k; pure none

/-- The memory that a call is to fill, and how many bytes of it. -/
def Call.buffer : Call → UInt64 × ℕ
  | .wait addr => (addr, 4)
  | .piperead addr n => (addr, n.toInt.toNat)
  | .consoleread addr n => (addr, n.toNat)
  | _ => (0, 0)

/-- `syscall` puts the result into `p->trapframe->a0`, and the process goes back to user space. -/
def sysReturn (p : Fin NPROC) (c : Call) : Option ℤ → KCode Unit
  | some r => write fun d => d.record (.returned p c r (d.load p c.buffer.1 c.buffer.2))
  | none => pure ()

def userLoop (calls : Call → Bool) (p : Fin NPROC) : KCode Unit :=
  loop (fun _ : Unit => do
    let c ← access fun i d =>
      match i with
      | .call c => if calls c then some (some c, d.record (.called p c)) else none
      | .store addr b => some (none, d.store p addr [b])
      | _ => none
    match c with
    | some (.exit status) => do
      kexit p status
      pure (.inr ())
    | some c => do
      let r ← perform p c
      sysReturn p c r
      pure (.inl ())
    | none => pure (.inl ())) ()

/-- The processes of one slot, one after the other. The first thing a process does is to give
back its lock in `forkret`. -/
def life (calls : Call → Bool) (p : Fin NPROC) : KCode Unit :=
  loop (fun _ : Unit => do
    scheduler p
    unlock (.proc p)
    userLoop calls p
    pure (.inl ())) ()

abbrev KPool := Pool (Fin NPROC) LockId Choice Tasks

/-- The kernel with all processes off their CPUs and all locks free. -/
def kernelStart (calls : Call → Bool) (d : Tasks) : KPool := ⟨d, fun _ => none, life calls⟩

def processes (n : ℕ) : Tasks where
  proc p := if p.val < n then ⟨.RUNNABLE, .null, false, 0, Int32.ofNat (p.val+1), none⟩
    else ⟨.UNUSED, .null, false, 0, 0, none⟩
  initproc := 0
  nextpid := Int32.ofNat (n+1)
  pipe := ⟨fun _ => 0, 0, 0, true, true⟩
  ticks := 0
  cons := ⟨fun _ => 0, 0, 0, 0⟩
  slock := ⟨false, 0⟩
  mem _ _ := 0
  trace := []

theorem processes_state (n : ℕ) (p : Fin NPROC) :
    ((processes n).proc p).state = if p.val < n then .RUNNABLE else .UNUSED := by
  rw [processes]
  dsimp only
  split <;> rfl

def steps (p : Fin NPROC) (n : ℕ) : List (Fin NPROC × Choice) :=
  List.replicate n (p, .succeeds true)

end Xv6.Threads
