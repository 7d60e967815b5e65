import Xv6.PageTable
import Mathlib.Data.Fintype.Basic

/-! Processes and open files as far as they hold memory: kernel/proc.c, the descriptors of
kernel/file.c and sysfile.c, kernel/pipe.c, and `sys_sbrk`. Inodes and registers hold no pages and
are left out. -/
namespace Xv6
open Function

abbrev NPROC : ℕ := 64
abbrev NOFILE : ℕ := 16
abbrev NFILE : ℕ := 100
abbrev MAXARG : ℕ := 32
abbrev USERSTACK : ℕ := 1
abbrev SBRK_EAGER : ℤ := 1

instance : NeZero NPROC := ⟨by decide⟩
instance : NeZero NOFILE := ⟨by decide⟩
instance : NeZero NFILE := ⟨by decide⟩

inductive ProcState where
  | UNUSED | USED | SLEEPING | RUNNABLE | RUNNING | ZOMBIE
  deriving DecidableEq, Repr

/-- An element of `argv` in `sys_exec`: the page with the string, and its length. The string
that `forkret` passes for the first process is a constant and has no page. -/
structure Arg where
  page : Option ℕ
  len : ℕ
  deriving DecidableEq, Repr

/-- The variables `pagetable` and `sz` of `kexec`. -/
structure Image where
  pagetable : ℕ
  sz : ℕ
  deriving DecidableEq, Repr

/-- `struct proc`. The last two fields are on the kernel stack of the process while it is in
`sys_exec` and in `kexec`. -/
structure Proc where
  state : ProcState
  parent : Option (Fin NPROC)
  trapframe : Option ℕ
  pagetable : Option ℕ
  sz : ℕ
  ofile : Fin NOFILE → Option (Fin NFILE)
  argv : List Arg
  image : Option Image

inductive FdType where
  | FD_NONE | FD_PIPE | FD_INODE | FD_DEVICE
  deriving DecidableEq, Repr

/-- `struct file`; `pipe` is the page of the `struct pipe`. -/
structure File where
  type : FdType
  ref : ℕ
  writable : Bool
  pipe : ℕ
  deriving DecidableEq, Repr

structure Pipe where
  readopen : Bool
  writeopen : Bool
  deriving DecidableEq, Repr

structure Kernel where
  phys : Phys
  proc : Fin NPROC → Proc
  file : Fin NFILE → File
  /-- The `struct pipe` in each page that holds one. -/
  pipe : ℕ → Pipe
  initproc : Option (Fin NPROC)
  /-- The pages that were allocated while the kernel was starting. -/
  boot : List ℕ

abbrev Ker := EStateM Halt Kernel

def vm {α : Type} (x : Vm α) : Ker α := fun k =>
  match x k.phys with
  | .ok a ph => .ok a { k with phys := ph }
  | .error e ph => .error e { k with phys := ph }

def setProc (p : Fin NPROC) (f : Proc → Proc) : Ker Unit :=
  modify fun k => { k with proc := update k.proc p (f (k.proc p)) }

def setFile (i : Fin NFILE) (f : File → File) : Ker Unit :=
  modify fun k => { k with file := update k.file i (f (k.file i)) }

/-- The processes, files and descriptors in the order in which loops visit them. -/
@[irreducible] def procIndices : List (Fin NPROC) := List.finRange NPROC
@[irreducible] def fileIndices : List (Fin NFILE) := List.finRange NFILE
@[irreducible] def fdIndices : List (Fin NOFILE) := List.finRange NOFILE

def procPagetable (trapframe : ℕ) : Vm (Option ℕ) := do
  let pagetable ← uvmcreate
  match pagetable with
  | none => return none
  | some pagetable => do
    let ph ← get
    let ok ← mappages pagetable TRAMPOLINE PGSIZE ph.trampoline ⟨true,false,true,false⟩
    if ok then do
      let ok ← mappages pagetable TRAPFRAME PGSIZE trapframe ⟨true,true,false,false⟩
      if ok then
        return some pagetable
      else do
        uvmunmap pagetable TRAMPOLINE 1 false
        uvmfree pagetable 0
        return none
    else do
      uvmfree pagetable 0
      return none

def procFreepagetable (pagetable sz : ℕ) : Vm Unit := do
  uvmunmap pagetable TRAMPOLINE 1 false
  uvmunmap pagetable TRAPFRAME 1 false
  uvmfree pagetable sz

def freeproc (p : Fin NPROC) : Ker Unit := do
  let k ← get
  vm ((k.proc p).trapframe.elim (pure ()) kfree)
  setProc p fun pr => { pr with trapframe := none }
  vm ((k.proc p).pagetable.elim (pure ()) fun q => procFreepagetable q (k.proc p).sz)
  setProc p fun pr => { pr with pagetable := none, sz := 0, parent := none, state := .UNUSED }

def allocproc : Ker (Option (Fin NPROC)) := do
  let k ← get
  match procIndices.find? fun p => (k.proc p).state = .UNUSED with
  | none => return none
  | some p => do
    setProc p fun pr => { pr with state := .USED }
    let trapframe ← vm kalloc
    setProc p fun pr => { pr with trapframe := trapframe }
    match trapframe with
    | none => do
      freeproc p
      return none
    | some trapframe => do
      let pagetable ← vm (procPagetable trapframe)
      setProc p fun pr => { pr with pagetable := pagetable }
      match pagetable with
      | none => do
        freeproc p
        return none
      | some _ => return some p

def userinit : Ker Unit := do
  let p ← allocproc
  match p with
  | none => throw (.panic "kerneltrap")
  | some p => do
    modify fun k => { k with initproc := some p }
    setProc p fun pr => { pr with state := .RUNNABLE }

/-- `p->pagetable`, to be used; a null pointer would be a fault in the kernel. -/
def pagetableOf (p : Fin NPROC) : Ker ℕ := do
  let k ← get
  match (k.proc p).pagetable with
  | none => throw (.panic "kerneltrap")
  | some q => return q

/-- Adding an `int` to a `uint64`. -/
def addInt (a : ℕ) (n : ℤ) : ℕ := ((a+n) % 2^64).toNat

def growproc (p : Fin NPROC) (n : ℤ) : Ker Bool := do
  let pagetable ← pagetableOf p
  let k ← get
  if n > 0 then do
    let sz ← vm (uvmalloc pagetable (k.proc p).sz (addInt (k.proc p).sz n) ⟨false,true,false,false⟩)
    if sz = 0 then
      return false
    else do
      setProc p fun pr => { pr with sz := sz }
      return true
  else if n < 0 then do
    let sz ← vm (uvmdealloc pagetable (k.proc p).sz (addInt (k.proc p).sz n))
    setProc p fun pr => { pr with sz := sz }
    return true
  else
    return true

def sysSbrk (p : Fin NPROC) (n t : ℤ) : Ker (Option ℕ) := do
  let k ← get
  if t = SBRK_EAGER ∨ n < 0 then do
    let ok ← growproc p n
    return if ok then some (k.proc p).sz else none
  else if addInt (k.proc p).sz n < (k.proc p).sz then
    return none
  else do
    setProc p fun pr => { pr with sz := addInt pr.sz n }
    return some (k.proc p).sz

/-- `vmfault`, from a page fault in user code. -/
def faultProc (p : Fin NPROC) (va : ℕ) : Ker (Option ℕ) := do
  let pagetable ← pagetableOf p
  let k ← get
  vm (vmfault pagetable (k.proc p).sz pagetable va)

def copyoutProc (p : Fin NPROC) (dstva len : ℕ) : Ker Bool := do
  let pagetable ← pagetableOf p
  let k ← get
  vm (copyout pagetable (k.proc p).sz pagetable dstva len)

def copyinProc (p : Fin NPROC) (srcva len : ℕ) : Ker Bool := do
  let pagetable ← pagetableOf p
  let k ← get
  vm (copyin pagetable (k.proc p).sz pagetable srcva len)

def filealloc : Ker (Option (Fin NFILE)) := do
  let k ← get
  match fileIndices.find? fun i => (k.file i).ref = 0 with
  | none => return none
  | some i => do
    setFile i fun f => { f with ref := 1 }
    return some i

def filedup (i : Fin NFILE) : Ker Unit := do
  let k ← get
  if (k.file i).ref < 1 then
    throw (.panic "filedup")
  else
    setFile i fun f => { f with ref := f.ref+1 }

def pipeclose (pi : ℕ) (writable : Bool) : Ker Unit := do
  modify fun k => { k with
    pipe := update k.pipe pi (if writable then { k.pipe pi with writeopen := false }
        else { k.pipe pi with readopen := false }) }
  let k ← get
  if !(k.pipe pi).readopen && !(k.pipe pi).writeopen then
    vm (kfree pi)
  else
    return

def fileclose (i : Fin NFILE) : Ker Unit := do
  let k ← get
  if (k.file i).ref < 1 then
    throw (.panic "fileclose")
  else if (k.file i).ref > 1 then
    setFile i fun f => { f with ref := f.ref-1 }
  else do
    setFile i fun f => { f with ref := 0, type := .FD_NONE }
    if (k.file i).type = .FD_PIPE then
      pipeclose (k.file i).pipe (k.file i).writable
    else
      return

def fdalloc (p : Fin NPROC) (i : Fin NFILE) : Ker (Option (Fin NOFILE)) := do
  let k ← get
  match fdIndices.find? fun fd => (k.proc p).ofile fd = none with
  | none => return none
  | some fd => do
    setProc p fun pr => { pr with ofile := update pr.ofile fd (some i) }
    return some fd

def clearFd (p : Fin NPROC) (fd : Fin NOFILE) : Ker Unit :=
  setProc p fun pr => { pr with ofile := update pr.ofile fd none }

def sysDup (p : Fin NPROC) (fd : Fin NOFILE) : Ker Unit := do
  let k ← get
  match (k.proc p).ofile fd with
  | none => return
  | some i => do
    let fd' ← fdalloc p i
    match fd' with
    | none => return
    | some _ => filedup i

def sysClose (p : Fin NPROC) (fd : Fin NOFILE) : Ker Unit := do
  let k ← get
  match (k.proc p).ofile fd with
  | none => return
  | some i => do
    clearFd p fd
    fileclose i

def openFile (p : Fin NPROC) (type : FdType) (writable : Bool) : Ker Unit := do
  let i ← filealloc
  match i with
  | none => return
  | some i => do
    let fd ← fdalloc p i
    match fd with
    | none => fileclose i
    | some _ => setFile i fun f => { f with type := type, writable := writable }

def pipealloc : Ker (Option (Fin NFILE × Fin NFILE)) := do
  let f0 ← filealloc
  match f0 with
  | none => return none
  | some f0 => do
    let f1 ← filealloc
    match f1 with
    | none => do
      fileclose f0
      return none
    | some f1 => do
      let pi ← vm kalloc
      match pi with
      | none => do
        fileclose f0
        fileclose f1
        return none
      | some pi => do
        modify fun k => { k with pipe := update k.pipe pi ⟨true,true⟩ }
        setFile f0 fun f => { f with type := .FD_PIPE, writable := false, pipe := pi }
        setFile f1 fun f => { f with type := .FD_PIPE, writable := true, pipe := pi }
        return some (f0,f1)

def sysPipe (p : Fin NPROC) (fdarray : ℕ) : Ker Unit := do
  let pipe ← pipealloc
  match pipe with
  | none => return
  | some (rf,wf) => do
    let fd0 ← fdalloc p rf
    match fd0 with
    | none => do
      fileclose rf
      fileclose wf
    | some fd0 => do
      let fd1 ← fdalloc p wf
      match fd1 with
      | none => do
        clearFd p fd0
        fileclose rf
        fileclose wf
      | some fd1 => do
        let ok ← copyoutProc p fdarray 4
        let ok ← (if ok then copyoutProc p ((fdarray+4) % 2^64) 4 else pure false)
        if ok then
          return
        else do
          clearFd p fd0
          clearFd p fd1
          fileclose rf
          fileclose wf

def dupFd (p np : Fin NPROC) (fd : Fin NOFILE) : Ker Unit := do
  let k ← get
  match (k.proc p).ofile fd with
  | none => return
  | some i => do
    filedup i
    setProc np fun pr => { pr with ofile := update pr.ofile fd (some i) }

def kfork (p : Fin NPROC) : Ker (Option (Fin NPROC)) := do
  let np ← allocproc
  match np with
  | none => return none
  | some np => do
    let old ← pagetableOf p
    let new ← pagetableOf np
    let k ← get
    let ok ← vm (uvmcopy old new (k.proc p).sz)
    if ok then do
      setProc np fun pr => { pr with sz := (k.proc p).sz }
      fdIndices.forM (dupFd p np)
      setProc np fun pr => { pr with parent := some p, state := .RUNNABLE }
      return some np
    else do
      freeproc np
      return none

def closeFd (p : Fin NPROC) (fd : Fin NOFILE) : Ker Unit := do
  let k ← get
  match (k.proc p).ofile fd with
  | none => return
  | some i => do
    fileclose i
    clearFd p fd

def reparent (p : Fin NPROC) : Ker Unit :=
  modify fun k => { k with
    proc := fun pp => if (k.proc pp).parent = some p then
        { k.proc pp with parent := k.initproc }
      else k.proc pp }

def kexit (p : Fin NPROC) : Ker Unit := do
  let k ← get
  if k.initproc = some p then
    throw (.panic "init exiting")
  else do
    fdIndices.forM (closeFd p)
    reparent p
    setProc p fun pr => { pr with state := .ZOMBIE }

/-- `kwait`. A call that has to wait for a child is one that is made later. -/
def kwait (p : Fin NPROC) (addr : ℕ) : Ker (Option (Fin NPROC)) := do
  let k ← get
  match procIndices.find? fun pp => (k.proc pp).parent = some p ∧ (k.proc pp).state = .ZOMBIE with
  | some pp => do
    let ok ← (if addr = 0 then pure true else copyoutProc p addr 4)
    if ok then do
      freeproc pp
      return some pp
    else
      return none
  | none =>
    if procIndices.any fun pp => (k.proc pp).parent = some p then
      throw .asleep
    else
      return none

end Xv6
