import Xv6.PhysMem

/-! User page tables, kernel/vm.c. A pointer to an entry is its page and its index there; a null
pointer, and a physical address 0, is `none`. A function that returns 0 for success and -1 for
failure returns `true` or `false`. -/
namespace Xv6

abbrev MAXVA : ℕ := 2^38
abbrev TRAMPOLINE : ℕ := MAXVA-PGSIZE
abbrev TRAPFRAME : ℕ := TRAMPOLINE-PGSIZE

/-- `PX(level, va)`. -/
def px (level va : ℕ) : Fin 512 := ⟨va/2^(12+9*level) % 512, Nat.mod_lt _ (by decide)⟩

def pgRoundUp (a : ℕ) : ℕ := (a+PGSIZE-1) % 2^64/PGSIZE*PGSIZE

def pgRoundDown (a : ℕ) : ℕ := a/PGSIZE*PGSIZE

/-- An entry that points to a lower-level table. -/
def tablePte (q : ℕ) : Pte := ⟨q, ⟨false,false,false,false⟩⟩

/-- The loop of `walk`, from `level` down. -/
def walkLoop (va : ℕ) (alloc : Bool) : ℕ → ℕ → Vm (Option (ℕ × Fin 512))
  | 0, pagetable => return some (pagetable, px 0 va)
  | level+1, pagetable => do
    let ph ← get
    match ph.mem pagetable (px (level+1) va) with
    | some pte => walkLoop va alloc level pte.ppn
    | none =>
      if alloc then do
        let q ← kalloc
        match q with
        | none => return none
        | some q => do
          fillPage q zeroPage
          setPte pagetable (px (level+1) va) (some (tablePte q))
          walkLoop va alloc level q
      else
        return none

def walk (pagetable va : ℕ) (alloc : Bool) : Vm (Option (ℕ × Fin 512)) :=
  if va ≥ MAXVA then throw (.panic "walk") else walkLoop va alloc 2 pagetable

/-- The entry for `va` as it is, for reading. -/
def readPte (pagetable va : ℕ) : Vm (Option Pte) := do
  let slot ← walk pagetable va false
  match slot with
  | none => return none
  | some (q,i) => do
    let ph ← get
    return ph.mem q i

def walkaddr (pagetable va : ℕ) : Vm (Option ℕ) :=
  if va ≥ MAXVA then
    return none
  else do
    let pte ← readPte pagetable va
    match pte with
    | none => return none
    | some pte => return if pte.perm.u then some pte.ppn else none

def mapLoop (pagetable : ℕ) (perm : Perm) : ℕ → ℕ → ℕ → Vm Bool
  | 0, _, _ => return true
  | n+1, a, pa => do
    let slot ← walk pagetable a true
    match slot with
    | none => return false
    | some (q,i) => do
      let ph ← get
      if (ph.mem q i).isSome then
        throw (.panic "mappages: remap")
      else do
        setPte q i (some ⟨pa, perm⟩)
        mapLoop pagetable perm n (a+PGSIZE) (pa+1)

def mappages (pagetable va size pa : ℕ) (perm : Perm) : Vm Bool :=
  if va % PGSIZE ≠ 0 then
    throw (.panic "mappages: va not aligned")
  else if size % PGSIZE ≠ 0 then
    throw (.panic "mappages: size not aligned")
  else if size = 0 then
    throw (.panic "mappages: size")
  else
    mapLoop pagetable perm (size/PGSIZE) va pa

def uvmcreate : Vm (Option ℕ) := do
  let q ← kalloc
  match q with
  | none => return none
  | some q => do
    fillPage q zeroPage
    return some q

/-- The loop body of `uvmunmap`. -/
def unmapPage (pagetable a : ℕ) (doFree : Bool) : Vm Unit := do
  let slot ← walk pagetable a false
  match slot with
  | none => return
  | some (q,i) => do
    let ph ← get
    match ph.mem q i with
    | none => return
    | some pte => do
      (if doFree then kfree pte.ppn else pure ())
      setPte q i none

def unmapLoop (pagetable : ℕ) (doFree : Bool) : ℕ → ℕ → Vm Unit
  | 0, _ => return
  | n+1, a => do
    unmapPage pagetable a doFree
    unmapLoop pagetable doFree n (a+PGSIZE)

def uvmunmap (pagetable va npages : ℕ) (doFree : Bool) : Vm Unit :=
  if va % PGSIZE ≠ 0 then
    throw (.panic "uvmunmap: not aligned")
  else
    unmapLoop pagetable doFree npages va

def uvmdealloc (pagetable oldsz newsz : ℕ) : Vm ℕ :=
  if newsz ≥ oldsz then
    return oldsz
  else do
    (if pgRoundUp newsz < pgRoundUp oldsz then
      uvmunmap pagetable (pgRoundUp newsz) ((pgRoundUp oldsz-pgRoundUp newsz)/PGSIZE) true
    else pure ())
    return newsz

/-- `uvmalloc`, `uvmcopy` and `vmfault` fill a page they got from `kalloc`, map it, and free
it again when that fails. -/
def mapFresh (pagetable va m : ℕ) (c : Page) (perm : Perm) : Vm Bool := do
  fillPage m c
  let ok ← mappages pagetable va PGSIZE m perm
  if ok then
    return true
  else do
    kfree m
    return false

/-- The loop of `uvmalloc`, for the `n` pages from `a` on; `oldsz` is where it began. -/
def allocLoop (pagetable oldsz : ℕ) (xperm : Perm) : ℕ → ℕ → Vm Bool
  | 0, _ => return true
  | n+1, a => do
    let m ← kalloc
    match m with
    | none => do
      let _ ← uvmdealloc pagetable a oldsz
      return false
    | some m => do
      let ok ← mapFresh pagetable a m zeroPage ⟨true, xperm.w, xperm.x, true⟩
      if ok then
        allocLoop pagetable oldsz xperm n (a+PGSIZE)
      else do
        let _ ← uvmdealloc pagetable a oldsz
        return false

/-- `uvmalloc`; 0 on error, else the new size. -/
def uvmalloc (pagetable oldsz newsz : ℕ) (xperm : Perm) : Vm ℕ :=
  if newsz < oldsz then
    return oldsz
  else do
    let ok ← allocLoop pagetable (pgRoundUp oldsz) xperm
      ((newsz-pgRoundUp oldsz+PGSIZE-1)/PGSIZE) (pgRoundUp oldsz)
    return if ok then newsz else 0

/-- `i = 0` to 511, in order. -/
@[irreducible] def pteIndices : List (Fin 512) := List.finRange 512

/-- The loop body of `freewalk`, with the recursive call as an argument. -/
def freeEntry (free : ℕ → Vm Unit) (pagetable : ℕ) (i : Fin 512) : Vm Unit := do
  let ph ← get
  match ph.mem pagetable i with
  | none => return
  | some pte =>
    if !pte.perm.r && !pte.perm.w && !pte.perm.x then do
      free pte.ppn
      setPte pagetable i none
    else
      throw (.panic "freewalk: leaf")

/-- `freewalk`. A tree that is deeper than the bound would make the kernel run over its
stack. -/
def freewalk : ℕ → ℕ → Vm Unit
  | 0, _ => throw .asleep
  | depth+1, pagetable => do
    pteIndices.forM (freeEntry (freewalk depth) pagetable)
    kfree pagetable

def uvmfree (pagetable sz : ℕ) : Vm Unit := do
  (if sz > 0 then uvmunmap pagetable 0 (pgRoundUp sz/PGSIZE) true else pure ())
  freewalk 3 pagetable

/-- The loop of `uvmcopy`, for the `n` pages from `i` on. -/
def copyLoop (old new : ℕ) : ℕ → ℕ → Vm Bool
  | 0, _ => return true
  | n+1, i => do
    let pte ← readPte old i
    match pte with
    | none => copyLoop old new n (i+PGSIZE)
    | some pte => do
      let m ← kalloc
      match m with
      | none => do
        uvmunmap new 0 (i/PGSIZE) true
        return false
      | some m => do
        let ph ← get
        let ok ← mapFresh new i m (ph.mem pte.ppn) pte.perm
        if ok then
          copyLoop old new n (i+PGSIZE)
        else do
          uvmunmap new 0 (i/PGSIZE) true
          return false

def uvmcopy (old new sz : ℕ) : Vm Bool :=
  copyLoop old new ((sz+PGSIZE-1)/PGSIZE) 0

def uvmclear (pagetable va : ℕ) : Vm Unit := do
  let slot ← walk pagetable va false
  match slot with
  | none => throw (.panic "uvmclear")
  | some (q,i) => do
    let ph ← get
    setPte q i ((ph.mem q i).map fun pte => { pte with perm := { pte.perm with u := false } })

def ismapped (pagetable va : ℕ) : Vm Bool := do
  let pte ← readPte pagetable va
  return pte.isSome

/-- `vmfault(pagetable, va)` in a process with page table `own` and size `sz`. -/
def vmfault (own sz pagetable va : ℕ) : Vm (Option ℕ) :=
  if va ≥ sz then
    return none
  else do
    let mapped ← ismapped pagetable (pgRoundDown va)
    if mapped then
      return none
    else do
      let m ← kalloc
      match m with
      | none => return none
      | some m => do
        let ok ← mapFresh own (pgRoundDown va) m zeroPage ⟨true,true,false,true⟩
        return if ok then some m else none

/-- The page that a copy to or from `va0` goes to, which may have to be allocated first. -/
def touchPage (own sz pagetable va0 : ℕ) : Vm (Option ℕ) := do
  let pa ← walkaddr pagetable va0
  match pa with
  | some pa => return some pa
  | none => vmfault own sz pagetable va0

/-- The loop of `copyout`; it ends because every round copies at least one byte. -/
def copyoutLoop (own sz pagetable : ℕ) : ℕ → ℕ → ℕ → Vm Bool
  | 0, _, _ => return true
  | fuel+1, dstva, len =>
    if len = 0 then
      return true
    else if pgRoundDown dstva ≥ MAXVA then
      return false
    else do
      let pa ← touchPage own sz pagetable (pgRoundDown dstva)
      match pa with
      | none => return false
      | some _ => do
        let pte ← readPte pagetable (pgRoundDown dstva)
        match pte with
        | none => throw (.panic "kerneltrap")
        | some pte =>
          if pte.perm.w then
            copyoutLoop own sz pagetable fuel (pgRoundDown dstva+PGSIZE)
              (len-min (PGSIZE-(dstva-pgRoundDown dstva)) len)
          else
            return false

def copyout (own sz pagetable dstva len : ℕ) : Vm Bool :=
  copyoutLoop own sz pagetable len dstva len

def copyinLoop (own sz pagetable : ℕ) : ℕ → ℕ → ℕ → Vm Bool
  | 0, _, _ => return true
  | fuel+1, srcva, len =>
    if len = 0 then
      return true
    else do
      let pa ← touchPage own sz pagetable (pgRoundDown srcva)
      match pa with
      | none => return false
      | some _ =>
        copyinLoop own sz pagetable fuel (pgRoundDown srcva+PGSIZE)
          (len-min (PGSIZE-(srcva-pgRoundDown srcva)) len)

def copyin (own sz pagetable srcva len : ℕ) : Vm Bool :=
  copyinLoop own sz pagetable len srcva len

end Xv6
