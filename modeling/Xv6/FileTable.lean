import Xv6.ProcTable

/-! `open`, `dup`, `close`, `pipe`, `fork`, `exec` and `exit` as they act on `ftable`, the pipes and
the descriptor tables. A step of a process is one section under `ftable.lock` or `pi->lock`, or one
access to a descriptor table, which only its own process uses (the parent for a child that does not
run yet). -/
namespace Xv6.FileTable

open Function

structure File where
  type : FdType
  ref : ℕ
  readable : Bool
  writable : Bool
  pipe : ℕ
  deriving DecidableEq, Repr

structure Pipe where
  readopen : Bool
  writeopen : Bool
  deriving DecidableEq, Repr

def Pipe.isOpen (pi : Pipe) (writable : Bool) : Bool :=
  if writable then pi.writeopen else pi.readopen

def Pipe.shut (pi : Pipe) (writable : Bool) : Pipe :=
  if writable then { pi with writeopen := false } else { pi with readopen := false }

abbrev Fds := Fin NOFILE → Option (Fin NFILE)

/-- What the caller of `fileclose` goes on with: the files that are still to be closed and whether
the system call then succeeds, or the loop of `kexit` at descriptor `fd`. -/
inductive After where
  | ret (fs : List (Fin NFILE)) (ok : Bool)
  | exit (fd : Fin NOFILE)
  deriving DecidableEq

/-- Where a process is. -/
inductive Point where
  /-- no process, or a zombie -/
  | unused
  /-- allocated by a `kfork` that is still copying -/
  | embryo
  /-- in user space; `ok` tells whether its last system call succeeded -/
  | user (ok : Bool)
  /-- `sys_dup` after `fdalloc`, before `filedup` -/
  | dupped (f : Fin NFILE) (fd : Fin NOFILE)
  /-- `sys_open` after `filealloc` -/
  | opened (f : Fin NFILE)
  /-- `sys_open` after `fdalloc`, before the fields of the file are set -/
  | opening (f : Fin NFILE)
  /-- `pipealloc` after the first `filealloc` -/
  | piped (f0 : Fin NFILE)
  /-- `pipealloc` after both, before `kalloc` -/
  | pipedTwo (f0 f1 : Fin NFILE)
  /-- `sys_pipe` after `pipealloc` -/
  | pipeEnds (rf wf : Fin NFILE)
  /-- `sys_pipe` after the first `fdalloc` -/
  | pipeFd (rf wf : Fin NFILE) (fd0 : Fin NOFILE)
  /-- `sys_pipe` before `copyout` -/
  | pipeOut (rf wf : Fin NFILE) (fd0 fd1 : Fin NOFILE)
  /-- `fileclose` before its section of `ftable.lock` -/
  | close (f : Fin NFILE) (k : After)
  /-- `fileclose` before `pipeclose` -/
  | pipeclose (pi : ℕ) (writable : Bool) (k : After)
  /-- `kfork` before it looks at descriptor `fd` -/
  | forking (np : Fin NPROC) (fd : ℕ)
  /-- `kfork` after `filedup`, before it stores the file in the child's table -/
  | forkDup (np : Fin NPROC) (fd : Fin NOFILE) (f : Fin NFILE)
  /-- `kexit` before it looks at descriptor `fd` -/
  | exiting (fd : ℕ)
  /-- `kexit` after `fileclose`, before it clears the descriptor -/
  | exitClear (fd : Fin NOFILE)
  deriving DecidableEq

/-- A process: its descriptors, where it is, and (for the statements only) the descriptors it had
when its system call began. -/
structure ProcFiles where
  ofile : Fds
  point : Point
  saved : Fds

/-- `live` marks the pages that hold a pipe; `allocs` and `frees` count how often each page was
allocated for a pipe and freed. -/
structure State where
  file : Fin NFILE → File
  proc : Fin NPROC → ProcFiles
  pipe : ℕ → Pipe
  live : ℕ → Bool
  allocs : ℕ → ℕ
  frees : ℕ → ℕ

def State.setProc (s : State) (p : Fin NPROC) (x : ProcFiles) : State :=
  { s with proc := update s.proc p x }

def State.setPoint (s : State) (p : Fin NPROC) (pt : Point) : State :=
  s.setProc p { s.proc p with point := pt }

def State.setFds (s : State) (p : Fin NPROC) (fds : Fds) (pt : Point) : State :=
  s.setProc p { s.proc p with ofile := fds, point := pt }

def State.setFile (s : State) (f : Fin NFILE) (x : File) : State :=
  { s with file := update s.file f x }

def State.setRef (s : State) (f : Fin NFILE) (n : ℕ) : State :=
  s.setFile f { s.file f with ref := n }

def filealloc (file : Fin NFILE → File) : Option (Fin NFILE) :=
  (List.finRange NFILE).find? fun f => (file f).ref = 0

def fdalloc (ofile : Fds) : Option (Fin NOFILE) :=
  (List.finRange NOFILE).find? fun fd => ofile fd = none

def After.resume : After → Point
  | .ret [] ok => .user ok
  | .ret (f :: fs) ok => .close f (.ret fs ok)
  | .exit fd => .exitClear fd

inductive Call where
  | dup (fd : Fin NOFILE)
  | close (fd : Fin NOFILE)
  | open
  | pipe
  | fork (np : Fin NPROC)
  | exec
  | exit
  deriving DecidableEq

def initproc : Fin NPROC := 0

/-- A process in user space makes a system call; the call runs up to its first access to shared
data.  `kfork` may fail before it touches a file: `np` is then no free entry. -/
def State.enter (s : State) (p : Fin NPROC) (c : Call) : Except String State :=
  let ofile := (s.proc p).ofile
  let s := s.setProc p { s.proc p with saved := ofile }
  match c with
  | .dup fd =>
    match ofile fd with
    | none => .ok (s.setPoint p (.user false))
    | some f =>
      match fdalloc ofile with
      | none => .ok (s.setPoint p (.user false))
      | some fd' => .ok (s.setFds p (update ofile fd' (some f)) (.dupped f fd'))
  | .close fd =>
    match ofile fd with
    | none => .ok (s.setPoint p (.user false))
    | some f => .ok (s.setFds p (update ofile fd none) (.close f (.ret [] true)))
  | .open =>
    match filealloc s.file with
    | none => .ok (s.setPoint p (.user false))
    | some f => .ok ((s.setRef f 1).setPoint p (.opened f))
  | .pipe =>
    match filealloc s.file with
    | none => .ok (s.setPoint p (.user false))
    | some f => .ok ((s.setRef f 1).setPoint p (.piped f))
  | .fork np =>
    if (s.proc np).point = .unused then
      .ok ((s.setPoint np .embryo).setPoint p (.forking np 0))
    else
      .ok (s.setPoint p (.user false))
  -- kexec reads the program through its inode and leaves the descriptors as they are
  | .exec => .ok (s.setPoint p (.user true))
  | .exit => if p = initproc then .error "init exiting" else .ok (s.setPoint p (.exiting 0))

/-- What the rest of the kernel decides during a step: whether `kalloc` or `copyout` succeeds, the
page `kalloc` returns, and the fields `sys_open` stores. -/
structure Choice where
  ok : Bool
  page : ℕ
  device : Bool
  readable : Bool
  writable : Bool

/-- `filedup`'s section, after which the process is at `pt`. -/
def State.filedup (s : State) (p : Fin NPROC) (f : Fin NFILE) (pt : Point) : Except String State :=
  if (s.file f).ref < 1 then
    .error "filedup"
  else
    .ok ((s.setRef f ((s.file f).ref+1)).setPoint p pt)

/-- The section of `ftable.lock` in `fileclose`.  The inode of a file that is not a pipe is put
without `ftable.lock`, which changes nothing here. -/
def State.fileclose (s : State) (p : Fin NPROC) (f : Fin NFILE) (k : After) : Except String State :=
  let ff := s.file f
  if ff.ref < 1 then
    .error "fileclose"
  else if 0 < ff.ref-1 then
    .ok ((s.setRef f (ff.ref-1)).setPoint p k.resume)
  else
    let s := s.setFile f { ff with ref := 0, type := .FD_NONE }
    if ff.type = .FD_PIPE then
      .ok (s.setPoint p (.pipeclose ff.pipe ff.writable k))
    else
      .ok (s.setPoint p k.resume)

/-- `pipeclose`, with the `kfree` of the page once both ends are closed. -/
def State.pipeclose (s : State) (p : Fin NPROC) (pi : ℕ) (writable : Bool) (k : After) :
    Except String State :=
  let x := (s.pipe pi).shut writable
  let s := { s with pipe := update s.pipe pi x }
  if x.readopen = false ∧ x.writeopen = false then
    if s.live pi then
      .ok (State.setPoint { s with live := update s.live pi false
                                   frees := update s.frees pi (s.frees pi+1) } p k.resume)
    else
      .error "kfree"
  else
    .ok (s.setPoint p k.resume)

/-- `pipealloc` with its page: both ends are open and the two files refer to them. -/
def State.pipealloc (s : State) (p : Fin NPROC) (f0 f1 : Fin NFILE) (pi : ℕ) : State :=
  let s := { s with pipe := update s.pipe pi ⟨true, true⟩
                    live := update s.live pi true
                    allocs := update s.allocs pi (s.allocs pi+1) }
  let s := s.setFile f0 { s.file f0 with
    type := .FD_PIPE, readable := true, writable := false, pipe := pi }
  let s := s.setFile f1 { s.file f1 with
    type := .FD_PIPE, readable := false, writable := true, pipe := pi }
  s.setPoint p (.pipeEnds f0 f1)

/-- The next step of a process inside a system call. -/
def State.go (s : State) (p : Fin NPROC) (c : Choice) : Except String State :=
  let ofile := (s.proc p).ofile
  match (s.proc p).point with
  | .unused | .embryo | .user _ => .ok s
  | .dupped f _ => s.filedup p f (.user true)
  | .opened f =>
    match fdalloc ofile with
    | none => .ok (s.setPoint p (.close f (.ret [] false)))
    | some fd => .ok (s.setFds p (update ofile fd (some f)) (.opening f))
  | .opening f =>
    let type : FdType := if c.device then .FD_DEVICE else .FD_INODE
    .ok ((s.setFile f { s.file f with
      type := type, readable := c.readable, writable := c.writable }).setPoint p (.user true))
  | .piped f0 =>
    match filealloc s.file with
    | none => .ok (s.setPoint p (.close f0 (.ret [] false)))
    | some f1 => .ok ((s.setRef f1 1).setPoint p (.pipedTwo f0 f1))
  | .pipedTwo f0 f1 =>
    -- kalloc never returns a page that holds a pipe
    if c.ok ∧ s.live c.page = false then
      .ok (s.pipealloc p f0 f1 c.page)
    else
      .ok (s.setPoint p (.close f0 (.ret [f1] false)))
  | .pipeEnds rf wf =>
    match fdalloc ofile with
    | none => .ok (s.setPoint p (.close rf (.ret [wf] false)))
    | some fd0 => .ok (s.setFds p (update ofile fd0 (some rf)) (.pipeFd rf wf fd0))
  | .pipeFd rf wf fd0 =>
    match fdalloc ofile with
    | none => .ok (s.setFds p (update ofile fd0 none) (.close rf (.ret [wf] false)))
    | some fd1 => .ok (s.setFds p (update ofile fd1 (some wf)) (.pipeOut rf wf fd0 fd1))
  | .pipeOut rf wf fd0 fd1 =>
    if c.ok then
      .ok (s.setPoint p (.user true))
    else
      .ok (s.setFds p (update (update ofile fd0 none) fd1 none) (.close rf (.ret [wf] false)))
  | .close f k => s.fileclose p f k
  | .pipeclose pi writable k => s.pipeclose p pi writable k
  | .forking np fd =>
    if h : fd < NOFILE then
      match ofile ⟨fd, h⟩ with
      | none => .ok (s.setPoint p (.forking np (fd+1)))
      | some f => s.filedup p f (.forkDup np ⟨fd, h⟩ f)
    else
      .ok ((s.setPoint np (.user true)).setPoint p (.user true))
  | .forkDup np fd f =>
    let s := s.setFds np (update (s.proc np).ofile fd (some f)) (s.proc np).point
    .ok (s.setPoint p (.forking np (fd+1)))
  | .exiting fd =>
    if h : fd < NOFILE then
      match ofile ⟨fd, h⟩ with
      | none => .ok (s.setPoint p (.exiting (fd+1)))
      | some f => .ok (s.setPoint p (.close f (.exit ⟨fd, h⟩)))
    else
      .ok (s.setPoint p .unused)
  | .exitClear fd => .ok (s.setFds p (update ofile fd none) (.exiting (fd+1)))

inductive Event where
  | call (p : Fin NPROC) (c : Call)
  | go (p : Fin NPROC) (c : Choice)

def State.step (s : State) : Event → Except String State
  | .call p c =>
    match (s.proc p).point with
    | .user _ => s.enter p c
    | _ => .ok s
  | .go p c => s.go p c

def State.run (s : State) : List Event → Except String State
  | [] => .ok s
  | e :: es => do
    let s ← s.step e
    s.run es

def boot : State where
  file _ := ⟨.FD_NONE, 0, false, false, 0⟩
  proc p := ⟨fun _ => none, if p = initproc then .user true else .unused, fun _ => none⟩
  pipe _ := ⟨false, false⟩
  live _ := false
  allocs _ := 0
  frees _ := 0

/-- The files a call in progress refers to without a descriptor: allocated or duplicated and not
installed yet, or uninstalled and not closed yet. -/
def Point.pending : Point → List (Fin NFILE)
  | .opened f => [f]
  | .piped f0 => [f0]
  | .pipedTwo f0 f1 => [f0, f1]
  | .pipeEnds rf wf => [rf, wf]
  | .pipeFd _ wf _ => [wf]
  | .close f (.ret fs _) => f :: fs
  | .pipeclose _ _ (.ret fs _) => fs
  | .forkDup _ _ f => [f]
  | _ => []

/-- The descriptor that a call in progress has filled and not counted yet (`sys_dup` before
`filedup`), or no longer counts and has not cleared yet (`kexit` after the `ftable.lock` section of
`fileclose`). -/
def Point.uncounted : Point → Option (Fin NOFILE)
  | .dupped _ fd => some fd
  | .pipeclose _ _ (.exit fd) => some fd
  | .exitClear fd => some fd
  | _ => none

/-- The descriptor table without the uncounted descriptor. -/
def ProcFiles.counted (x : ProcFiles) : Fds := fun fd =>
  if x.point.uncounted = some fd then none else x.ofile fd

end Xv6.FileTable
