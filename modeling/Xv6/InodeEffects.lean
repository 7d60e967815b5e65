import Xv6.InodeInvariant

/-! Each operation is a few effects one after the other. An effect says when it may happen in terms
of what the process owns. -/
namespace Xv6.Inodes

open Interleaving Function

/-- What a process may find out by looking at the state. -/
def Seen (s : State) (L : Loc) : Fact → Prop
  | .num i n => i ∈ L.refs ∧ (s.inode i).inum = n
  | .named j off n => j ∈ L.locks ∧ Fact.type j T_DIR ∈ L.know ∧
      IsEntry (s.data (s.inode j).inum) (s.inode j).d.size off n
  | .opened f i w => (∃ fd, L.slots fd = some f) ∧ IsInode (s.file f) ∧ (s.file f).ip = i ∧
      (s.file f).writable = w
  | _ => False

/-- The process has one more reference to `i`, the entry of inode `n`; with `new` it is the first
one to a new inode. -/
def Loc.got (L : Loc) (new : Bool) (i : Fin NINODE) (n : ℕ) : Loc :=
  if new then L.addNew i n else (L.addRef i).learn (.num i n)

/-- A reference to `i` goes to file `f`. -/
def Loc.opens (L : Loc) (f : Fin NFILE) (i : Fin NINODE) (w : Bool) : Loc :=
  { L with refs := L.refs.erase i
           know := insert (.opened f i w) { φ | φ ∈ L.know ∧ φ ≠ .fresh f ∧ ∀ n, φ ≠ .num i n } }

/-- A reference to file `f` is given up, and the references in `is` come from it. -/
def Loc.closes (L : Loc) (f : Fin NFILE) (is : List (Fin NINODE)) : Loc :=
  { L with files := L.files.erase f
           refs := is++L.refs
           know := { φ | φ ∈ L.forgetOpened ∧ φ ≠ .fresh f } }

/-- The file in descriptor `fd` goes to a variable. -/
def Loc.takes (L : Loc) (fd : Fin NOFILE) (gone : Option (Fin NOFILE)) : Loc :=
  { L with slots := update L.slots fd none
           files := (L.slots fd).toList++L.files
           gone := gone
           know := L.forgetOpened }

/-- With `new`, the process has allocated the number; otherwise its inode has a link. -/
def MayGet (s : State) (L : Loc) (new : Bool) (n : ℕ) : Prop :=
  if new then ∃ t, Fact.unborn n t ∈ L.know else Linked s n

/-- New contents of a directory: each entry was there before or may be written. -/
structure DirChange (s : State) (L : Loc) (i : Fin NINODE) (d : Dnode) (data : ℕ → UInt8)
    (K : Set Fact) : Prop where
  size : d.size % DIRENTSIZE = 0
  entries : ∀ off n, IsEntry data d.size off n →
    IsEntry (s.data (s.inode i).inum) (s.inode i).d.size off n ∨
    (∃ t, Fact.newborn n i t ∈ L.know) ∨
    ∃ j t, Fact.num j n ∈ L.know ∧ Fact.type j t ∈ L.know ∧ t ≠ T_DIR
  named : ∀ off n, Fact.named i off n ∈ K → IsEntry data d.size off n

/-- Nothing but names and numbers is forgotten. -/
structure Loc.Forgets (L : Loc) (K : Set Fact) : Prop where
  subset : K ⊆ L.know
  keeps : ∀ φ ∈ L.know, (∀ j off n, φ ≠ .named j off n) → (∀ i n, φ ≠ .num i n) → φ ∈ K

/-- The effect that changes what process `p` owns. -/
inductive Effect (md : Mode) (p : Fin NPROC) (s : State) (Ls : Locs) : State → Locs → Prop
  | forget (K : Set Fact) (hK : (Ls p).Forgets K) :
      Effect md p s Ls s (update Ls p { Ls p with know := K })
  | learn (φ : Fact) (ha : (Ls p).alive = true) (hφ : Seen s (Ls p) φ) :
      Effect md p s Ls s (update Ls p ((Ls p).learn φ))
  | loaded (i : Fin NINODE) (ha : (Ls p).alive = true) (hl : i ∈ (Ls p).locks)
      (hs : (Ls p).stage = none) (hv : (s.inode i).valid = true) :
      Effect md p s Ls s (update Ls p ((Ls p).loaded i (s.inode i).d.type))
  | hold (new : Bool) (i : Fin NINODE) (n : ℕ) (ha : (Ls p).alive = true)
      (hr : 0 < (s.inode i).ref) (hn : (s.inode i).inum = n)
      (hmay : md.careful → MayGet s (Ls p) new n ∨ new = false ∧ (Ls p).cwd = some i) :
      Effect md p s Ls (idup s i) (update Ls p ((Ls p).got new i n))
  | recycle (new : Bool) (i : Fin NINODE) (n : ℕ) (ha : (Ls p).alive = true)
      (hr : (s.inode i).ref = 0) (hn : ∀ j, 0 < (s.inode j).ref → (s.inode j).inum ≠ n)
      (hsmall : md.ordered → n < 2^16) (hmay : md.careful → MayGet s (Ls p) new n) :
      Effect md p s Ls (s.setInode i { s.inode i with inum := n, ref := 1, valid := false })
        (update Ls p ((Ls p).got new i n))
  | acquire (i : Fin NINODE) (ha : (Ls p).alive = true) (hs : (Ls p).stage = none)
      (hb : (Ls p).Backs i) (hl : (s.inode i).lock = none) :
      Effect md p s Ls (s.setInode i { s.inode i with lock := some p })
        (update Ls p { Ls p with locks := i :: (Ls p).locks })
  | load (i : Fin NINODE) (hl : i ∈ (Ls p).locks) (hs : (Ls p).stage = none)
      (hv : (s.inode i).valid = false) (ht : (s.dinode (s.inode i).inum).type ≠ 0) :
      Effect md p s Ls
        (s.setInode i { s.inode i with d := s.dinode (s.inode i).inum, valid := true })
        (update Ls p (Ls p))
  | unlock (i : Fin NINODE) (ha : (Ls p).alive = true) (hl : i ∈ (Ls p).locks)
      (hs : (Ls p).stage = none) :
      Effect md p s Ls (s.setInode i { s.inode i with lock := none })
        (update Ls p ((Ls p).unlocked i))
  | putMore (i : Fin NINODE) (ha : (Ls p).alive = true) (hr : i ∈ (Ls p).refs)
      (hs : (Ls p).stage = none) (hl : i ∈ (Ls p).locks → i ∈ (Ls p).refs.erase i) :
      Effect md p s Ls (s.setInode i { s.inode i with ref := (s.inode i).ref-1 })
        (update Ls p ((Ls p).dropRef i))
  | putLast (i : Fin NINODE) (ha : (Ls p).alive = true) (hr : i ∈ (Ls p).refs)
      (hs : (Ls p).stage = none) (href : (s.inode i).ref = 1) (hv : (s.inode i).valid = true)
      (hlink : (s.inode i).d.nlink = 0) (hl : (s.inode i).lock = none) :
      Effect md p s Ls (s.setInode i { s.inode i with lock := some p })
        (update Ls p { Ls p with locks := i :: (Ls p).locks,
                                          stage := some (i, .freeing),
                                          know := (Ls p).keptWithout i })
  | store (i : Fin NINODE) (d : Dnode) (data : ℕ → UInt8) (K : Set Fact)
      (hl : i ∈ (Ls p).locks) (hs : (Ls p).stage = none)
      (ht : ∃ t, Fact.type i t ∈ (Ls p).know) (htype : d.type = (s.inode i).d.type)
      (hK : (Ls p).Forgets K)
      (hdir : md.ordered → (s.inode i).d.type = T_DIR → DirChange s (Ls p) i d data K) :
      Effect md p s Ls ((s.setData (s.inode i).inum data).iupdate i d)
        (update Ls p { Ls p with know := K })
  | trunc (i : Fin NINODE) (ha : (Ls p).alive = true) (hs : (Ls p).stage = some (i, .freeing)) :
      Effect md p s Ls
        ((s.setData (s.inode i).inum fun _ => 0).iupdate i { (s.inode i).d with size := 0 })
        (update Ls p { Ls p with stage := some (i, .trunced) })
  | free (i : Fin NINODE) (ha : (Ls p).alive = true) (hs : (Ls p).stage = some (i, .trunced)) :
      Effect md p s Ls (s.iupdate i { (s.inode i).d with type := 0 })
        (update Ls p { Ls p with stage := some (i, .freed) })
  | invalidate (i : Fin NINODE) (ha : (Ls p).alive = true) (hs : (Ls p).stage = some (i, .freed)) :
      Effect md p s Ls (s.setInode i { s.inode i with valid := false, lock := none })
        (update Ls p { Ls p with locks := (Ls p).locks.erase i,
                                          stage := some (i, .dropping) })
  | drop (i : Fin NINODE) (ha : (Ls p).alive = true) (hs : (Ls p).stage = some (i, .dropping)) :
      Effect md p s Ls (s.setInode i { s.inode i with ref := (s.inode i).ref-1 })
        (update Ls p { (Ls p).dropRef i with stage := none })
  | ialloc (dp : Fin NINODE) (n t : ℕ) (ha : (Ls p).alive = true) (hn : (s.dinode n).type = 0)
      (ht : t ≠ 0)
      (hdir : md.ordered → dp ∈ (Ls p).locks ∧ Fact.type dp T_DIR ∈ (Ls p).know) :
      Effect md p s Ls { s with dinode := update s.dinode n ⟨t, 0, 0, 0, 0⟩ }
        (update Ls p (((Ls p).learn (.newborn n dp t)).learn (.unborn n t)))
  | seek (f : Fin NFILE) (off : ℕ) :
      Effect md p s Ls (s.setFile f { s.file f with off := off }) (update Ls p (Ls p))
  | filealloc (f : Fin NFILE) (ha : (Ls p).alive = true) (hr : (s.file f).ref = 0) :
      Effect md p s Ls (s.setFile f { s.file f with ref := 1 })
        (update Ls p { (Ls p).learn (.fresh f) with files := f :: (Ls p).files })
  | fdalloc (fd : Fin NOFILE) (f : Fin NFILE) (ha : (Ls p).alive = true) (hf : f ∈ (Ls p).files)
      (hfd : (Ls p).slots fd = none) (hg : (Ls p).gone = none) :
      Effect md p s Ls (setFd p s fd (some f))
        (update Ls p { Ls p with slots := update (Ls p).slots fd (some f),
                                          files := (Ls p).files.erase f })
  | openFile (f : Fin NFILE) (i : Fin NINODE) (fl : OpenFile) (ha : (Ls p).alive = true)
      (hf : Fact.fresh f ∈ (Ls p).know) (hfd : ∃ fd, (Ls p).slots fd = some f)
      (hs : (Ls p).stage = none) (hr : i ∈ (Ls p).refs) (hl : i ∈ (Ls p).locks)
      (ht : Fact.type i (s.inode i).d.type ∈ (Ls p).know) (href : fl.ref = (s.file f).ref)
      (hfl : IsInode fl) (hip : fl.ip = i)
      (hw : md.careful → fl.writable = true → (s.inode i).d.type ≠ T_DIR) :
      Effect md p s Ls (s.setFile f fl) (update Ls p ((Ls p).opens f i fl.writable))
  | dropFile (f : Fin NFILE) (ha : (Ls p).alive = true) (hf : f ∈ (Ls p).files)
      (ho : (Ls p).OwnLocks) (hr : 1 < (s.file f).ref) :
      Effect md p s Ls (s.setFile f { s.file f with ref := (s.file f).ref-1 })
        (update Ls p ((Ls p).closes f []))
  | dropLast (f : Fin NFILE) (ha : (Ls p).alive = true) (hf : f ∈ (Ls p).files)
      (ho : (Ls p).OwnLocks) (hr : (s.file f).ref = 1) :
      Effect md p s Ls (s.setFile f { s.file f with ref := 0, type := .FD_NONE }) (update Ls p
          ((Ls p).closes f (if IsInode (s.file f) then [(s.file f).ip] else [])))
  | takeFd (fd : Fin NOFILE) (ha : (Ls p).alive = true) (hg : (Ls p).gone = none)
      (ho : (Ls p).OwnLocks) :
      Effect md p s Ls (setFd p s fd none) (update Ls p ((Ls p).takes fd (Ls p).gone))
  | exitFd (fd : Fin NOFILE) (ha : (Ls p).alive = true) (hg : (Ls p).gone = none)
      (ho : (Ls p).OwnLocks) :
      Effect md p s Ls s (update Ls p
          ((Ls p).takes fd (if ((Ls p).slots fd).isSome then some fd else none)))
  | clearFd (fd : Fin NOFILE) (ha : (Ls p).alive = true) (hg : (Ls p).gone = some fd) :
      Effect md p s Ls (setFd p s fd none) (update Ls p { Ls p with gone := none })
  | dupFd (fd : Fin NOFILE) (f : Fin NFILE) (hf : ∃ q fd, (Ls q).slots fd = some f ∧ Fact.fresh f ∉ (Ls q).know)
      (hfd : (Ls p).slots fd = none) (hg : (Ls p).gone = none) :
      Effect md p s Ls (setFd p (s.setFile f { s.file f with ref := (s.file f).ref+1 }) fd (some f))
        (update Ls p { Ls p with slots := update (Ls p).slots fd (some f) })
  | takeCwd (i : Fin NINODE) (ha : (Ls p).alive = true) (hc : (Ls p).cwd = some i) :
      Effect md p s Ls s (update Ls p { (Ls p).addRef i with cwd := none })
  | setCwd (i : Fin NINODE) (ha : (Ls p).alive = true) (hc : (Ls p).cwd = none)
      (hr : i ∈ (Ls p).refs) (hs : (Ls p).stage = none) (hl : i ∉ (Ls p).locks) :
      Effect md p s Ls (s.setProc p { s.proc p with cwd := some i })
        (update Ls p { (Ls p).dropRef i with cwd := some i })
  | exit (ha : (Ls p).alive = true) (hc : (Ls p).cwd = none) (hr : (Ls p).refs = [])
      (hl : (Ls p).locks = []) (hf : (Ls p).files = []) (hg : (Ls p).gone = none)
      (hs : (Ls p).stage = none) :
      Effect md p s Ls (s.setProc p { s.proc p with cwd := none })
        (update Ls p { Ls p with alive := false, know := ∅ })
  | born (i : Fin NINODE) (ha : (Ls p).alive = false) (hi : ∃ q, (Ls q).cwd = some i) :
      Effect md p s Ls ((idup s i).setProc p { s.proc p with cwd := some i })
        (update Ls p { Ls p with alive := true, cwd := some i })

/-! The states after some effects. -/

/-- The last `iput` takes the lock. -/
abbrev Loc.starts (L : Loc) (i : Fin NINODE) : Loc :=
  { L with locks := i :: L.locks, stage := some (i, .freeing), know := L.keptWithout i }

abbrev Loc.finishes (L : Loc) (i : Fin NINODE) : Loc :=
  { L with locks := L.locks.erase i, stage := some (i, .dropping) }

abbrev Loc.allocs (L : Loc) (n : ℕ) (dp : Fin NINODE) (t : ℕ) : Loc :=
  (L.learn (.newborn n dp t)).learn (.unborn n t)

abbrev State.unref (s : State) (i : Fin NINODE) : State :=
  s.setInode i { s.inode i with ref := (s.inode i).ref-1 }

abbrev State.recycle (s : State) (i : Fin NINODE) (n : ℕ) : State :=
  s.setInode i { s.inode i with inum := n, ref := 1, valid := false }

abbrev State.invalidate (s : State) (i : Fin NINODE) : State :=
  s.setInode i { s.inode i with valid := false, lock := none }

abbrev State.closeFile (s : State) (f : Fin NFILE) : State :=
  s.setFile f { s.file f with ref := 0, type := .FD_NONE }

abbrev State.ialloced (s : State) (n t : ℕ) : State :=
  { s with dinode := update s.dinode n ⟨t, 0, 0, 0, 0⟩ }

/-- A process starts in directory `i`. -/
abbrev State.bears (s : State) (p : Fin NPROC) (i : Fin NINODE) : State :=
  (idup s i).setProc p { s.proc p with cwd := some i }

abbrev State.itrunc (s : State) (i : Fin NINODE) : State :=
  (s.setData (s.inode i).inum fun _ => 0).iupdate i { (s.inode i).d with size := 0 }

abbrev inodesOf (f : OpenFile) : List (Fin NINODE) := if IsInode f then [f.ip] else []

section Forgets
variable {L : Loc} {K : Set Fact} (h : L.Forgets K)
include h

theorem Loc.Forgets.opened {f : Fin NFILE} {i : Fin NINODE} {w : Bool} :
    Fact.opened f i w ∈ K ↔ Fact.opened f i w ∈ L.know :=
  ⟨fun hf => h.subset hf, fun hf => h.keeps _ hf (fun _ _ _ => Fact.noConfusion)
    fun _ _ => Fact.noConfusion⟩

theorem Loc.Forgets.type {i : Fin NINODE} {t : ℕ} : Fact.type i t ∈ K ↔ Fact.type i t ∈ L.know :=
  ⟨fun hf => h.subset hf, fun hf => h.keeps _ hf (fun _ _ _ => Fact.noConfusion)
    fun _ _ => Fact.noConfusion⟩

end Forgets

/-- Effects one after the other. -/
inductive Effects (md : Mode) : State → Locs → State → Locs → Prop
  | refl (s : State) (Ls : Locs) : Effects md s Ls s Ls
  | tail {s s1 s2 : State} {Ls Ls1 Ls2 : Locs} (p : Fin NPROC) (h : Effects md s Ls s1 Ls1)
      (he : Effect md p s1 Ls1 s2 Ls2) : Effects md s Ls s2 Ls2

end Xv6.Inodes
