import Xv6.InodeLayer
import Xv6.FileSpecs

/-! What a process owns while it works on inodes: references, locks, descriptors and what it knows
about them; for each operation, what it needs and what it leaves. -/
namespace Xv6.Inodes

open Interleaving Function

/-- How far an `iput` is that frees its inode: before `itrunc`, before `ip->type = 0`, before
`ip->valid = 0`, before the last `ip->ref--`. -/
inductive Stage where
  | freeing
  | trunced
  | freed
  | dropping
  deriving DecidableEq

/-- What a process may know. -/
inductive Fact where
  /-- entry `i` is loaded and has type `t` -/
  | type (i : Fin NINODE) (t : ℕ)
  /-- entry `i` is inode number `n` -/
  | num (i : Fin NINODE) (n : ℕ)
  /-- the directory `j`, which the process has locked, names inode `n` at `off`, not as a dot -/
  | named (j : Fin NINODE) (off n : ℕ)
  /-- inode number `n` was allocated as type `t` for the directory `j`, which the process has
  locked -/
  | newborn (n : ℕ) (j : Fin NINODE) (t : ℕ)
  /-- inode number `n` was allocated as type `t`; no reference to it exists yet -/
  | unborn (n t : ℕ)
  /-- entry `i` is such an inode, not loaded so far -/
  | born (i : Fin NINODE) (t : ℕ)
  /-- file `f` is allocated, and nobody else knows it -/
  | fresh (f : Fin NFILE)
  /-- file `f`, which stands in a descriptor, is inode `i` -/
  | opened (f : Fin NFILE) (i : Fin NINODE) (writable : Bool)

/-- What a process owns. -/
structure Loc where
  /-- the process exists -/
  alive : Bool
  /-- references in local variables -/
  refs : List (Fin NINODE)
  locks : List (Fin NINODE)
  /-- the current directory, while it counts as a reference -/
  cwd : Option (Fin NINODE)
  /-- the descriptors that count -/
  slots : Fin NOFILE → Option (Fin NFILE)
  /-- the descriptor that `kexit` has closed and not cleared -/
  gone : Option (Fin NOFILE)
  /-- files in local variables -/
  files : List (Fin NFILE)
  /-- an `iput` that frees its inode -/
  stage : Option (Fin NINODE × Stage)
  know : Set Fact

namespace Loc

def Backs (L : Loc) (i : Fin NINODE) : Prop := i ∈ L.refs ∨ ∃ f w, Fact.opened f i w ∈ L.know

/-- No lock rests on the reference of an open file. -/
def OwnLocks (L : Loc) : Prop := ∀ i ∈ L.locks, i ∈ L.refs

/-- Facts that outlast one reference to `i` less. -/
def keptWithout (L : Loc) (i : Fin NINODE) : Set Fact :=
  { φ | φ ∈ L.know ∧ (i ∈ L.refs.erase i ∨
    (∀ t, φ ≠ .type i t) ∧ (∀ n, φ ≠ .num i n) ∧ ∀ t, φ ≠ .born i t) }

def dropRef (L : Loc) (i : Fin NINODE) : Loc :=
  { L with refs := L.refs.erase i, know := L.keptWithout i }

def unlocked (L : Loc) (i : Fin NINODE) : Loc :=
  { L with
    locks := L.locks.erase i
    know := { φ | φ ∈ L.know ∧ (i ∈ L.refs ∨ ∀ t, φ ≠ .type i t) ∧
      (∀ off n, φ ≠ .named i off n) ∧ ∀ n t, φ ≠ .newborn n i t } }

/-- The entries of directory `j` may have changed. -/
def forgetNames (L : Loc) (j : Fin NINODE) : Loc :=
  { L with know := { φ | φ ∈ L.know ∧ ∀ off n, φ ≠ .named j off n } }

/-- What is known of the files in descriptors is given up. -/
def forgetOpened (L : Loc) : Set Fact := { φ | φ ∈ L.know ∧ ∀ f i w, φ ≠ .opened f i w }

def learn (L : Loc) (φ : Fact) : Loc := { L with know := insert φ L.know }

def addRef (L : Loc) (i : Fin NINODE) : Loc := { L with refs := i :: L.refs }

def addNew (L : Loc) (i : Fin NINODE) (n : ℕ) : Loc :=
  { L.addRef i with
    know := { φ | φ = .num i n ∨ φ ∈ L.know ∧ (∀ t, φ ≠ .unborn n t) ∨
      ∃ t, φ = .born i t ∧ .unborn n t ∈ L.know } }

def loaded (L : Loc) (i : Fin NINODE) (t : ℕ) : Loc :=
  { L with know := { φ | φ = .type i t ∨ φ ∈ L.know ∧ ∀ u, φ ≠ .born i u } }

/-- The inode `i` may be waited for while `j` is locked: it is named in `j`, or in `create` it is
new for `j`. -/
def MayWait (L : Loc) (new : Option (Fin NINODE)) (j i : Fin NINODE) : Prop :=
  ∃ n, Fact.num i n ∈ L.know ∧ ((∃ off, Fact.named j off n ∈ L.know) ∨
    new = some j ∧ ∃ t, Fact.newborn n j t ∈ L.know)

/-- An entry for inode `n` may be written to directory `j`: a dot, or a new inode, or one that is
no directory. -/
def MayLink (L : Loc) (j : Fin NINODE) (name : Name) (n : ℕ) : Prop :=
  name = dot ∨ name = dotdot ∨ (∃ t, Fact.newborn n j t ∈ L.know) ∨
    ∃ i t, Fact.num i n ∈ L.know ∧ Fact.type i t ∈ L.know ∧ t ≠ T_DIR

structure Idle (L : Loc) : Prop where
  refs : L.refs = []
  locks : L.locks = []
  files : L.files = []
  gone : L.gone = none
  stage : L.stage = none
  cwd : L.alive = true → L.cwd.isSome

def Dead (L : Loc) : Prop := L.alive = false

end Loc

def opensWritable (omode : ℕ) : Bool := hasFlag omode O_WRONLY || hasFlag omode O_RDWR

/-- How much of the rules is asked for. -/
structure Mode where
  /-- a new inode is found as it was allocated, and a file opened for writing is no directory -/
  careful : Prop
  /-- the directories form a tree, and locks are taken downwards -/
  ordered : Prop

/-- What a process must own for an operation. -/
def need (md : Mode) (L : Loc) : {β : Type} → Op β → Prop
  | _, .iget inum => md.ordered → inum < 2^16
  | _, .igetNew inum => (md.ordered → inum < 2^16) ∧ ∃ t, Fact.unborn inum t ∈ L.know
  | _, .dupCwd => L.cwd.isSome
  | _, .acquire i new => L.stage = none ∧ L.Backs i ∧
      (md.ordered → L.locks = [] ∨ ∃ j, L.locks = [j] ∧ L.MayWait new j i)
  | _, .load i => i ∈ L.locks ∧ L.stage = none
  | _, .unlock i => i ∈ L.locks ∧ L.stage = none
  | _, .put i => i ∈ L.refs ∧ L.stage = none ∧ (i ∈ L.locks → i ∈ L.refs.erase i)
  | _, .itrunc i => L.stage = some (i, .freeing) ∨
      L.stage = none ∧ i ∈ L.locks ∧ Fact.type i T_FILE ∈ L.know
  | _, .free i => L.stage = some (i, .trunced)
  | _, .invalidate i => L.stage = some (i, .freed)
  | _, .drop i => L.stage = some (i, .dropping)
  | _, .fields i => i ∈ L.locks ∧ ∃ t, Fact.type i t ∈ L.know
  | _, .inum i => i ∈ L.refs
  | _, .lookup j _ => j ∈ L.locks ∧ ∃ t, Fact.type j t ∈ L.know
  | _, .link j name n => L.stage = none ∧ j ∈ L.locks ∧ (∃ t, Fact.type j t ∈ L.know) ∧
      (md.ordered → Fact.type j T_DIR ∈ L.know ∧ n < 2^16 ∧ L.MayLink j name n)
  | _, .isdirempty i => i ∈ L.locks
  | _, .change i _ => L.stage = none ∧ i ∈ L.locks ∧ ∃ t, Fact.type i t ∈ L.know
  | _, .erase j off => L.stage = none ∧ j ∈ L.locks ∧ (∃ t, Fact.type j t ∈ L.know) ∧
      (md.ordered → ∃ n, Fact.named j off n ∈ L.know)
  | _, .ialloc dp type => type ≠ 0 ∧ (md.ordered → dp ∈ L.locks ∧ Fact.type dp T_DIR ∈ L.know)
  | _, .write f i _ _ => L.stage = none ∧ i ∈ L.locks ∧ Fact.opened f i true ∈ L.know ∧
      ∃ t, Fact.type i t ∈ L.know
  | _, .read f i _ => i ∈ L.locks ∧ ∃ w, Fact.opened f i w ∈ L.know
  | _, .readi i _ _ => i ∈ L.locks
  | _, .filealloc => True
  | _, .fdalloc f => f ∈ L.files ∧ L.gone = none
  | _, .openFile f i d omode => Fact.fresh f ∈ L.know ∧ (∃ fd, L.slots fd = some f) ∧
      L.stage = none ∧ i ∈ L.refs ∧ i ∈ L.locks ∧ Fact.type i d.type ∈ L.know ∧
      (md.careful → opensWritable omode = true → d.type ≠ T_DIR)
  | _, .dropFile f => f ∈ L.files ∧ L.OwnLocks
  | _, .argFile fd => L.gone ≠ some fd
  | _, .takeFile _ => L.gone = none ∧ L.OwnLocks
  | _, .dupFile _ => L.gone = none ∧ ∀ f, Fact.fresh f ∉ L.know
  | _, .fileFields f => ∃ fd, L.slots fd = some f
  | _, .exitFile _ => L.gone = none ∧ L.OwnLocks
  | _, .clearFd fd => L.gone = some fd
  | _, .takeCwd => L.cwd.isSome
  | _, .setCwd none => L.cwd = none ∧ L.refs = [] ∧ L.locks = [] ∧ L.files = [] ∧
      L.gone = none ∧ L.stage = none ∧ ∀ fd, L.slots fd = none
  | _, .setCwd (some i) => L.cwd = none ∧ i ∈ L.refs ∧ L.stage = none ∧ i ∉ L.locks
  | _, .fork _ => L.gone = none ∧ L.cwd.isSome ∧ ∀ f, Fact.fresh f ∉ L.know
  | _, .panic _ => True

/-- What it owns afterwards. -/
def gives (md : Mode) (L : Loc) : {β : Type} → Op β → β → Loc → Prop
  | _, .iget inum, b, L' => L' = (L.addRef b).learn (.num b inum)
  | _, .igetNew inum, b, L' => L' = L.addNew b inum
  | _, .dupCwd, b, L' => L.cwd = some b ∧ L' = L.addRef b
  | _, .acquire i _, _, L' => i ∉ L.locks ∧ L' = { L with locks := i :: L.locks }
  | _, .load i, _, L' => ∃ t, L' = L.loaded i t ∧ (md.careful → ∀ u, Fact.born i u ∈ L.know → t = u)
  | _, .unlock i, _, L' => L' = L.unlocked i
  | _, .put i, b, L' =>
    if b then i ∉ L.refs.erase i ∧
      L' = { L with locks := i :: L.locks, stage := some (i, .freeing), know := L.keptWithout i }
    else L' = L.dropRef i
  | _, .itrunc i, _, L' =>
    L' = { L with stage := if L.stage = none then none else some (i, .trunced) }
  | _, .free i, _, L' => L' = { L with stage := some (i, .freed) }
  | _, .invalidate i, _, L' => L' = { L with locks := L.locks.erase i, stage := some (i, .dropping) }
  | _, .drop i, _, L' => L' = { L.dropRef i with stage := none }
  | _, .fields i, b, L' => (∀ t, Fact.type i t ∈ L.know → b.type = t) ∧ L' = L
  | _, .inum i, b, L' => (md.ordered → b < 2^16) ∧ (∀ n, Fact.num i n ∈ L.know → b = n) ∧ L' = L.learn (.num i b)
  | _, .lookup j name, b, L' => Fact.type j T_DIR ∈ L.know ∧
      match b with
      | none => L' = L.forgetNames j
      | some (n, off) => n < 2^16 ∧ L' = if name = dot ∨ name = dotdot then L.forgetNames j
          else (L.forgetNames j).learn (.named j off n)
  | _, .link j _ _, _, L' => L' = L.forgetNames j
  | _, .isdirempty _, _, L' => L' = L
  | _, .change _ _, _, L' => L' = L
  | _, .erase j _, _, L' => L' = L.forgetNames j
  | _, .ialloc dp type, b, L' =>
    match b with
    | none => L' = L
    | some n => (md.ordered → n < 2^16) ∧ L' = (L.learn (.newborn n dp type)).learn (.unborn n type)
  | _, .write _ _ _ _, _, L' => L' = L
  | _, .read _ _ _, _, L' => L' = L
  | _, .readi _ _ _, _, L' => L' = L
  | _, .filealloc, b, L' =>
    match b with
    | none => L' = L
    | some f => L' = { L.learn (.fresh f) with files := f :: L.files }
  | _, .fdalloc f, b, L' =>
    match b with
    | none => L' = L
    | some fd => L.slots fd = none ∧
      L' = { L with slots := update L.slots fd (some f), files := L.files.erase f }
  | _, .openFile f i _ omode, _, L' =>
    L' = { L with
      refs := L.refs.erase i
      know := insert (.opened f i (opensWritable omode))
        { φ | φ ∈ L.know ∧ φ ≠ .fresh f ∧ ∀ n, φ ≠ .num i n } }
  | _, .dropFile f, b, L' =>
    L' = { L with
      files := L.files.erase f
      refs := b.toList ++ L.refs
      know := { φ | φ ∈ L.forgetOpened ∧ φ ≠ .fresh f } }
  | _, .argFile fd, b, L' => b = L.slots fd ∧ L' = L
  | _, .takeFile fd, b, L' => b = L.slots fd ∧
      L' = { L with slots := update L.slots fd none, files := b.toList ++ L.files
                    know := L.forgetOpened }
  | _, .dupFile fd, b, L' =>
    match b with
    | none => L' = L
    | some fd' => ∃ f, L.slots fd = some f ∧ L.slots fd' = none ∧
      L' = { L with slots := update L.slots fd' (some f) }
  | _, .fileFields f, b, L' =>
    L' = if b.type = .FD_INODE ∨ b.type = .FD_DEVICE then L.learn (.opened f b.ip b.writable) else L
  | _, .exitFile fd, b, L' => b = L.slots fd ∧
      L' = { L with slots := update L.slots fd none, files := b.toList ++ L.files
                    gone := if b.isSome then some fd else none, know := L.forgetOpened }
  | _, .clearFd _, _, L' => L' = { L with gone := none }
  | _, .takeCwd, b, L' => L.cwd = some b ∧ L' = { L.addRef b with cwd := none }
  | _, .setCwd none, _, L' => L' = { L with alive := false, know := ∅ }
  | _, .setCwd (some i), _, L' => L' = { L.dropRef i with cwd := some i }
  | _, .fork _, _, L' => L' = L
  | _, .panic _, _, _ => False

/-- The rules, for processes that exist. -/
def rules (md : Mode) : Rules Op Loc where
  pre o L := L.alive = true ∧ need md L o
  post o L b L' := gives md L o b L'

end Xv6.Inodes
