import Xv6.ProcTable

/-! `sys_exec` and `kexec`, kernel/sysfile.c and exec.c. Other processes run whenever `kexec` waits
for the disk and between the arguments, so the code is cut there. What is read from the file or from
user memory is a parameter of the part that reads it. -/
namespace Xv6

/-- `struct proghdr`, with the fields that `kexec` looks at; `load` is `type == ELF_PROG_LOAD`,
`x` and `w` are the bits of `flags` that `flags2perm` tests. -/
structure ProgHdr where
  load : Bool
  x : Bool
  w : Bool
  vaddr : UInt64
  filesz : UInt64
  memsz : UInt64
  deriving DecidableEq, Repr

def flags2perm (ph : ProgHdr) : Perm := ⟨false, ph.w, ph.x, false⟩

/-- The loop of `loadseg`, for the `n` pages from `va` on; `reads` says how many calls of
`readi` come back with all bytes. -/
def loadLoop (pagetable : ℕ) : ℕ → ℕ → ℕ → Vm Bool
  | 0, _, _ => return true
  | n+1, va, reads => do
    let pa ← walkaddr pagetable va
    match pa with
    | none => throw (.panic "loadseg: address should exist")
    | some _ =>
      match reads with
      | 0 => return false
      | reads+1 => loadLoop pagetable n (va+PGSIZE) reads

/-- `loadseg`; its parameter `sz` is a `uint`. -/
def loadseg (pagetable va sz reads : ℕ) : Vm Bool :=
  loadLoop pagetable ((sz % 2^32+PGSIZE-1)/PGSIZE) va reads

/-- The loop of `kexec` that copies the arguments to the new stack, and the copy of `ustack`
after it. No subtraction wraps around: a string is shorter than a page, and the stack begins
above the page that guards it. -/
def pushArgs (own ownsz pagetable stackbase : ℕ) : List ℕ → ℕ → ℕ → Vm Bool
  | [], argc, sp =>
    let sp := sp-(argc+1)*8
    let sp := sp-sp % 16
    if sp < stackbase then return false
    else copyout own ownsz pagetable sp ((argc+1)*8)
  | len :: lens, argc, sp =>
    if argc ≥ MAXARG then return false
    else
      let sp := sp-(len+1)
      let sp := sp-sp % 16
      if sp < stackbase then return false
      else do
        let ok ← copyout own ownsz pagetable sp (len+1)
        if ok then pushArgs own ownsz pagetable stackbase lens (argc+1) sp
        else return false

/-- `sys_exec` frees the argument buffers when `kexec` is done, and at `bad`. -/
def freeArgs (p : Fin NPROC) : Ker Unit := do
  let k ← get
  vm ((k.proc p).argv.forM fun a => a.page.elim (pure ()) kfree)
  setProc p fun pr => { pr with argv := [] }

/-- What the caller of `kexec` does when it returns -1: `sys_exec` frees the arguments,
`forkret` panics. -/
def execFailed (p : Fin NPROC) : Ker Unit := do
  let k ← get
  if (k.proc p).argv.all fun a => a.page.isSome then
    freeArgs p
  else
    throw (.panic "exec")

/-- `bad` in `kexec`. -/
def kexecBad (p : Fin NPROC) : Ker Unit := do
  let k ← get
  vm ((k.proc p).image.elim (pure ()) fun img => procFreepagetable img.pagetable img.sz)
  setProc p fun pr => { pr with image := none }
  execFailed p

/-- `kexec` up to the new page table; `found` says whether the path names a file that starts
with an ELF header. -/
def kexecBegin (p : Fin NPROC) (found : Bool) : Ker Unit := do
  let k ← get
  match (k.proc p).trapframe with
  | none => throw (.panic "kerneltrap")
  | some trapframe =>
    if found then do
      let pagetable ← vm (procPagetable trapframe)
      setProc p fun pr => { pr with image := pagetable.map fun q => ⟨q,0⟩ }
      (if pagetable.isSome then pure () else kexecBad p)
    else
      kexecBad p

/-- One round of the loop of `kexec` over the program headers; `hdr` is `none` when it could
not be read. -/
def kexecSegment (p : Fin NPROC) (hdr : Option ProgHdr) (reads : ℕ) : Ker Unit := do
  let k ← get
  match (k.proc p).image, hdr with
  | none, _ => throw .asleep
  | some _, none => kexecBad p
  | some img, some ph =>
    if !ph.load then
      return
    else if ph.memsz < ph.filesz ∨ ph.vaddr+ph.memsz < ph.vaddr ∨ ph.vaddr.toNat % PGSIZE ≠ 0 then
      kexecBad p
    else do
      let sz1 ← vm (uvmalloc img.pagetable img.sz (ph.vaddr+ph.memsz).toNat (flags2perm ph))
      if sz1 = 0 then
        kexecBad p
      else do
        setProc p fun pr => { pr with image := some ⟨img.pagetable, sz1⟩ }
        let ok ← vm (loadseg img.pagetable ph.vaddr.toNat ph.filesz.toNat reads)
        (if ok then pure () else kexecBad p)

/-- `kexec` after the last program header: the stack, the arguments, and the switch to the new
image. -/
def kexecCommit (p : Fin NPROC) : Ker Unit := do
  let own ← pagetableOf p
  let k ← get
  match (k.proc p).image with
  | none => throw .asleep
  | some img => do
    let sz := pgRoundUp img.sz
    let sz1 ← vm (uvmalloc img.pagetable sz ((sz+(USERSTACK+1)*PGSIZE) % 2^64)
      ⟨false,true,false,false⟩)
    if sz1 = 0 then do
      setProc p fun pr => { pr with image := some ⟨img.pagetable, sz⟩ }
      kexecBad p
    else do
      setProc p fun pr => { pr with image := some ⟨img.pagetable, sz1⟩ }
      vm (uvmclear img.pagetable (sz1-(USERSTACK+1)*PGSIZE))
      let ok ← vm (pushArgs own (k.proc p).sz img.pagetable (sz1-USERSTACK*PGSIZE)
        ((k.proc p).argv.map Arg.len) 0 sz1)
      if ok then do
        setProc p fun pr => { pr with
          pagetable := some img.pagetable
          sz := sz1
          image := none }
        vm (procFreepagetable own (k.proc p).sz)
        freeArgs p
      else
        kexecBad p

/-- `fetchaddr(addr)`, as far as it touches memory. -/
def fetchaddr (p : Fin NPROC) (addr : ℕ) : Ker Bool := do
  let k ← get
  if addr ≥ (k.proc p).sz ∨ (addr+8) % 2^64 > (k.proc p).sz then
    return false
  else
    copyinProc p addr 8

/-- A round of the loop of `sys_exec` that finds a pointer to a string. `str` is what
`fetchstr` returns: the length of the string, which is less than the size of the buffer. -/
def sysExecArg (p : Fin NPROC) (uargv : ℕ) (str : Option (Fin PGSIZE)) : Ker Unit := do
  let k ← get
  if (k.proc p).argv.length ≥ MAXARG then
    freeArgs p
  else do
    let ok ← fetchaddr p ((uargv+8*(k.proc p).argv.length) % 2^64)
    if ok then do
      let m ← vm kalloc
      match m with
      | none => freeArgs p
      | some m => do
        setProc p fun pr => { pr with
          argv := pr.argv ++ [⟨some m, (str.map Fin.val).getD 0⟩] }
        (if str.isSome then pure () else freeArgs p)
    else
      freeArgs p

/-- The round that finds the null pointer, and the call of `kexec`. -/
def sysExecLast (p : Fin NPROC) (uargv : ℕ) (found : Bool) : Ker Unit := do
  let k ← get
  if (k.proc p).argv.length ≥ MAXARG then
    freeArgs p
  else do
    let ok ← fetchaddr p ((uargv+8*(k.proc p).argv.length) % 2^64)
    (if ok then kexecBegin p found else freeArgs p)

/-- The call of `kexec` in `forkret`, by the first process. -/
def forkretExec (p : Fin NPROC) (found : Bool) : Ker Unit := do
  setProc p fun pr => { pr with argv := [⟨none, "/init".length⟩] }
  kexecBegin p found

end Xv6
