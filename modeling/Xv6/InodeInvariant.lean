import Xv6.InodeRules

/-! What holds of the inode table, the files, the directory tree and the references to numbers of
inodes that have links, compared with what all processes own. -/
namespace Xv6.Inodes

open Interleaving

/-! ## Counting references -/

def IsInode (fl : OpenFile) : Prop := fl.type = .FD_INODE ∨ fl.type = .FD_DEVICE

instance (fl : OpenFile) : Decidable (IsInode fl) := inferInstanceAs (Decidable (_ ∨ _))

def fileHolds (fl : OpenFile) (i : Fin NINODE) : ℕ := if IsInode fl ∧ fl.ip = i then 1 else 0

namespace Loc

/-- How many references to `i` the process has: in variables and as current directory. -/
def holds (L : Loc) (i : Fin NINODE) : ℕ := L.refs.count i+if L.cwd = some i then 1 else 0

/-- The process is about to give up a reference to `i`, whose inode it has freed. -/
def Ends (L : Loc) (i : Fin NINODE) : Prop :=
  L.stage = some (i, .freed) ∨ L.stage = some (i, .dropping)

instance (L : Loc) (i : Fin NINODE) : Decidable (L.Ends i) := inferInstanceAs (Decidable (_ ∨ _))

/-- References to `i` without the one that goes with the inode just freed. -/
def keeps (L : Loc) (i : Fin NINODE) : ℕ := L.holds i-if L.Ends i then 1 else 0

/-- The same for the references in variables. -/
def keepsVar (L : Loc) (i : Fin NINODE) : ℕ := L.refs.count i-if L.Ends i then 1 else 0

/-- How many references to file `f` the process has. -/
def holdsFile (L : Loc) (f : Fin NFILE) : ℕ := L.files.count f+fdRefs L.slots f

end Loc

abbrev Locs := Fin NPROC → Loc

/-- References to `i` of all processes, as `w` counts them, and of all files. -/
@[irreducible] def total (w : Loc → ℕ) (s : State) (Ls : Locs) (i : Fin NINODE) : ℕ :=
  (∑ p, w (Ls p))+∑ f, fileHolds (s.file f) i

def outstanding (s : State) (Ls : Locs) (i : Fin NINODE) : ℕ := total (·.holds i) s Ls i

/-- The outstanding references to `i` that are not about to be given up with a freed inode. -/
def lasting (s : State) (Ls : Locs) (i : Fin NINODE) : ℕ := total (·.keeps i) s Ls i

/-- How many references to file `f` there are. -/
@[irreducible] def fileRefs (Ls : Locs) (f : Fin NFILE) : ℕ := ∑ p, (Ls p).holdsFile f

/-! ## The four parts -/

def Busy (Ls : Locs) (i : Fin NINODE) : Prop :=
  ∃ p st, (Ls p).stage = some (i, st) ∧ st ≠ .dropping

/-- Entries of the table, as process `p` sees them. -/
structure TableLoc (s : State) (Ls : Locs) (p : Fin NPROC) : Prop where
  locked : ∀ i, i ∈ (Ls p).locks ↔ (s.inode i).lock = some p
  backed : ∀ i ∈ (Ls p).locks, (Ls p).Backs i
  nodup : (Ls p).locks.Nodup
  stage : ∀ i st, (Ls p).stage = some (i, st) → i ∈ (Ls p).refs ∧
    (st ≠ .dropping → i ∈ (Ls p).locks ∧ (s.inode i).valid = true) ∧
    (st = .dropping → i ∉ (Ls p).locks) ∧
    (st = .freeing ∨ st = .trunced → (s.inode i).d.nlink = 0)
  typed : ∀ i t, Fact.type i t ∈ (Ls p).know → (i ∈ (Ls p).refs ∨ i ∈ (Ls p).locks) ∧
    (s.inode i).valid = true ∧ (s.inode i).d.type = t ∧ ¬ Busy Ls i
  num : ∀ i n, Fact.num i n ∈ (Ls p).know → i ∈ (Ls p).refs ∧ (s.inode i).inum = n
  cwd : ∀ i, (Ls p).cwd = some i → (s.proc p).cwd = some i
  alive : (Ls p).alive = (s.proc p).cwd.isSome
  dead : (Ls p).alive = false → (Ls p).refs = [] ∧ (Ls p).locks = [] ∧ (Ls p).files = [] ∧
    (Ls p).gone = none ∧ (Ls p).stage = none ∧ (Ls p).know = ∅
  untyped : ∀ i st, (Ls p).stage = some (i, st) → ∀ t, Fact.type i t ∉ (Ls p).know

/-- The table: references are counted, an inode has one entry, and a valid entry is what stands on
the disk. -/
structure TableInv (s : State) (Ls : Locs) : Prop where
  counted : ∀ i, (s.inode i).ref = outstanding s Ls i
  unique : ∀ i j, 0 < (s.inode i).ref → 0 < (s.inode j).ref →
    (s.inode i).inum = (s.inode j).inum → i = j
  agrees : ∀ i, 0 < (s.inode i).ref → (s.inode i).valid = true →
    (∀ p, (Ls p).stage ≠ some (i, .freed)) →
    (s.inode i).d = s.dinode (s.inode i).inum ∧ (s.inode i).d.type ≠ 0
  proc : ∀ p, TableLoc s Ls p

/-- Files, as process `p` sees them. -/
structure FileLoc (s : State) (Ls : Locs) (p : Fin NPROC) : Prop where
  slots : ∀ fd, (Ls p).gone ≠ some fd → (s.proc p).ofile fd = (Ls p).slots fd
  gone : ∀ fd, (Ls p).gone = some fd → (Ls p).slots fd = none
  fresh : ∀ f, Fact.fresh f ∈ (Ls p).know →
    (s.file f).ref = 1 ∧ (s.file f).type = .FD_NONE ∧ 0 < (Ls p).holdsFile f
  opened : ∀ f i w, Fact.opened f i w ∈ (Ls p).know → (∃ fd, (Ls p).slots fd = some f) ∧
    IsInode (s.file f) ∧ (s.file f).ip = i ∧ (s.file f).writable = w

/-- The files: references are counted, and the inode of a file is loaded and is not freed. -/
structure FileInv (md : Mode) (s : State) (Ls : Locs) : Prop where
  counted : ∀ f, (s.file f).ref = fileRefs Ls f
  free : ∀ f, (s.file f).ref = 0 → (s.file f).type = .FD_NONE
  owner : ∀ f, IsInode (s.file f) → (s.inode (s.file f).ip).valid = true ∧ ¬ Busy Ls (s.file f).ip ∧
    (md.careful → (s.file f).writable = true → (s.inode (s.file f).ip).d.type ≠ T_DIR)
  proc : ∀ p, FileLoc s Ls p

structure IsEntry (data : ℕ → UInt8) (size off n : ℕ) : Prop where
  aligned : off % DIRENTSIZE = 0
  inside : off+DIRENTSIZE ≤ size
  inum : entryInum data off = n
  used : n ≠ 0
  dot : entryName data off ≠ dot
  dotdot : entryName data off ≠ dotdot

/-- Directories, as process `p` sees them. -/
structure TreeLoc (birth : ℕ → ℕ) (s : State) (Ls : Locs) (p : Fin NPROC) : Prop where
  named : ∀ j off n, Fact.named j off n ∈ (Ls p).know → j ∈ (Ls p).locks ∧
    Fact.type j T_DIR ∈ (Ls p).know ∧
    IsEntry (s.data (s.inode j).inum) (s.inode j).d.size off n
  newborn : ∀ n j t, Fact.newborn n j t ∈ (Ls p).know → j ∈ (Ls p).locks ∧
    Fact.type j T_DIR ∈ (Ls p).know ∧ birth (s.inode j).inum < birth n

/-- The directories: one that is named in another was made after it.  `birth` tells when the inode
with a number was allocated, and `clock` when the next one will be. -/
structure TreeInv (birth : ℕ → ℕ) (clock : ℕ) (s : State) (Ls : Locs) : Prop where
  ninodes : s.ninodes ≤ 2^16
  small : ∀ i, (s.inode i).inum < 2^16
  sizes : ∀ m, (s.dinode m).type = T_DIR → (s.dinode m).size % DIRENTSIZE = 0
  entries : ∀ m, (s.dinode m).type = T_DIR → ∀ off n,
    IsEntry (s.data m) (s.dinode m).size off n → (s.dinode n).type = T_DIR → birth m < birth n
  past : ∀ m, birth m < clock
  proc : ∀ p, TreeLoc birth s Ls p

def Linked (s : State) (n : ℕ) : Prop := (s.dinode n).type ≠ 0 ∧ (s.dinode n).nlink ≠ 0

instance (s : State) (n : ℕ) : Decidable (Linked s n) := inferInstanceAs (Decidable (_ ∧ _))

/-- New and freed inodes, as process `p` sees them. -/
structure LinkLoc (s : State) (Ls : Locs) (p : Fin NPROC) : Prop where
  unborn : ∀ n t, Fact.unborn n t ∈ (Ls p).know → t ≠ 0 ∧ s.dinode n = ⟨t, 0, 0, 0, 0⟩ ∧
    ∀ i, 0 < (s.inode i).ref → (s.inode i).inum = n → lasting s Ls i = 0
  once : ∀ n t q u, Fact.unborn n t ∈ (Ls p).know → Fact.unborn n u ∈ (Ls q).know → q = p
  born : ∀ i t, Fact.born i t ∈ (Ls p).know → 0 < (Ls p).keepsVar i ∧
    s.dinode (s.inode i).inum = ⟨t, 0, 0, 0, 0⟩ ∧ lasting s Ls i = 1 ∧
    (∀ u, Fact.type i u ∉ (Ls p).know) ∧ ∀ st, (Ls p).stage = some (i, st) → (Ls p).Ends i
  alone : ∀ i st, (Ls p).stage = some (i, st) → st = .freeing ∨ st = .trunced → (s.inode i).ref = 1

/-- Numbers: a reference is to an allocated inode, unless it is about to be given up. -/
structure LinkInv (s : State) (Ls : Locs) : Prop where
  live : ∀ i, 0 < lasting s Ls i → (s.dinode (s.inode i).inum).type ≠ 0
  proc : ∀ p, LinkLoc s Ls p

structure Inv (md : Mode) (s : State) (Ls : Locs) : Prop where
  table : TableInv s Ls
  files : FileInv md s Ls
  tree : md.ordered → ∃ birth clock, TreeInv birth clock s Ls
  links : md.careful → LinkInv s Ls

/-! ## Sums over processes and files -/

section Sums
variable {w : Loc → ℕ} {s s' : State} {Ls : Locs} {i : Fin NINODE}

theorem total_loc (w : Loc → ℕ) (s : State) (Ls : Locs) (i : Fin NINODE) (p : Fin NPROC)
    (L : Loc) : total w s (Function.update Ls p L) i+w (Ls p) = total w s Ls i+w L := by
  have h := sum_update_add w Ls p L
  unfold total
  omega

theorem total_file (w : Loc → ℕ) (s : State) (Ls : Locs) (i : Fin NINODE) (f : Fin NFILE)
    (fl : OpenFile) :
    total w (s.setFile f fl) Ls i+fileHolds (s.file f) i = total w s Ls i+fileHolds fl i := by
  have h := sum_update_add (fun fl => fileHolds fl i) s.file f fl
  unfold total State.setFile
  dsimp only
  omega

theorem total_congr (h : s'.file = s.file) : total w s' Ls i = total w s Ls i := by
  unfold total
  rw [h]

section
variable (w : Loc → ℕ) (s : State) (Ls : Locs) (i : Fin NINODE)

theorem le_total (p : Fin NPROC) :
    w (Ls p) ≤ total w s Ls i := by
  have h := Finset.single_le_sum (f := fun p => w (Ls p)) (fun _ _ => Nat.zero_le _)
    (Finset.mem_univ p)
  unfold total
  omega

theorem two_le_total {p q : Fin NPROC} (hpq : p ≠ q) :
    w (Ls p)+w (Ls q) ≤ total w s Ls i := by
  have h := Finset.add_le_sum (f := fun p => w (Ls p)) (fun _ _ => Nat.zero_le _)
    (Finset.mem_univ p) (Finset.mem_univ q) hpq
  unfold total
  omega

theorem file_le_total (p : Fin NPROC) (f : Fin NFILE) :
    w (Ls p)+fileHolds (s.file f) i ≤ total w s Ls i := by
  have h := Finset.single_le_sum (f := fun p => w (Ls p)) (fun _ _ => Nat.zero_le _)
    (Finset.mem_univ p)
  have h' := Finset.single_le_sum (f := fun f => fileHolds (s.file f) i)
    (fun _ _ => Nat.zero_le _) (Finset.mem_univ f)
  unfold total
  omega

end

theorem fileRefs_loc (Ls : Locs) (f : Fin NFILE) (p : Fin NPROC) (L : Loc) :
    fileRefs (Function.update Ls p L) f+(Ls p).holdsFile f = fileRefs Ls f+L.holdsFile f := by
  unfold fileRefs
  exact sum_update_add (fun L : Loc => L.holdsFile f) Ls p L

theorem le_fileRefs (f : Fin NFILE) (p : Fin NPROC) : (Ls p).holdsFile f ≤ fileRefs Ls f := by
  unfold fileRefs
  exact Finset.single_le_sum (f := fun p => (Ls p).holdsFile f) (fun _ _ => Nat.zero_le _)
    (Finset.mem_univ p)

theorem two_le_fileRefs (Ls : Locs) (f : Fin NFILE) {p q : Fin NPROC} (hpq : p ≠ q) :
    (Ls p).holdsFile f+(Ls q).holdsFile f ≤ fileRefs Ls f := by
  unfold fileRefs
  exact Finset.add_le_sum (f := fun p => (Ls p).holdsFile f) (fun _ _ => Nat.zero_le _)
    (Finset.mem_univ p) (Finset.mem_univ q) hpq

end Sums

/-! ## What follows from the invariant -/

variable {L : Loc}

section Facts
variable {md : Mode} {s : State} {Ls : Locs} {p q : Fin NPROC} {i j : Fin NINODE} {f : Fin NFILE}

theorem Loc.holds_pos (h : i ∈ L.refs) : 0 < L.holds i := by
  have hc := List.count_pos_iff.mpr h
  unfold Loc.holds
  omega

theorem Loc.holds_pos_cwd (h : L.cwd = some i) : 0 < L.holds i := by
  unfold Loc.holds
  rw [if_pos h]
  omega

theorem Loc.holdsFile_pos {fd : Fin NOFILE} (h : L.slots fd = some f) : 0 < L.holdsFile f := by
  have hc := fdRefs_pos h
  unfold Loc.holdsFile
  omega

theorem Loc.holdsFile_pos_files (h : f ∈ L.files) : 0 < L.holdsFile f := by
  have hc := List.count_pos_iff.mpr h
  unfold Loc.holdsFile
  omega

theorem fileHolds_ip {fl : OpenFile} (h : IsInode fl) : fileHolds fl fl.ip = 1 :=
  if_pos ⟨h, rfl⟩

theorem TableInv.ref_pos (h : TableInv s Ls) (hi : i ∈ (Ls p).refs) : 0 < (s.inode i).ref := by
  rw [h.counted]
  exact lt_of_lt_of_le (Loc.holds_pos hi) (le_total (·.holds i) s Ls i p)

theorem TableInv.ref_pos_file (h : TableInv s Ls) (hf : IsInode (s.file f)) :
    0 < (s.inode (s.file f).ip).ref := by
  have hle := file_le_total (·.holds (s.file f).ip) s Ls (s.file f).ip 0 f
  rw [fileHolds_ip hf] at hle
  rw [h.counted]
  exact lt_of_lt_of_le (Nat.succ_pos _) hle

theorem Inv.backs_pos (h : Inv md s Ls) (hb : (Ls p).Backs i) : 0 < (s.inode i).ref := by
  rcases hb with hr | ⟨f, w, hf⟩
  · exact h.table.ref_pos hr
  · obtain ⟨-, hinode, hip, -⟩ := (h.files.proc p).opened f i w hf
    rw [← hip]
    exact h.table.ref_pos_file hinode

/-- Whoever keeps an entry in the table besides `p`, there is a reference more. -/
theorem Inv.backs_two (h : Inv md s Ls) (hpq : p ≠ q) (hp : i ∈ (Ls p).refs)
    (hq : (Ls q).Backs i) : 1 < (s.inode i).ref := by
  have hp' := Loc.holds_pos hp
  rw [h.table.counted]
  rcases hq with hr | ⟨f, w, hf⟩
  · have hq' := Loc.holds_pos hr
    have hle := two_le_total (·.holds i) s Ls i hpq
    unfold outstanding
    omega
  · obtain ⟨-, hinode, hip, -⟩ := (h.files.proc q).opened f i w hf
    have hle := file_le_total (·.holds i) s Ls i p f
    have hf' : fileHolds (s.file f) i = 1 := by
      rw [← hip]
      exact fileHolds_ip hinode
    unfold outstanding
    omega

/-- A process that has the lock and is not freeing anything keeps others from freeing. -/
theorem TableInv.not_busy (h : TableInv s Ls) (hi : i ∈ (Ls p).locks)
    (hs : (Ls p).stage = none) : ¬ Busy Ls i := by
  rintro ⟨q, st, hq, hst⟩
  have hlock := ((h.proc q).stage i st hq).2.1 hst
  have hp := ((h.proc p).locked i).mp hi
  have hqlock := ((h.proc q).locked i).mp hlock.1
  rw [hp] at hqlock
  cases hqlock
  rw [hs] at hq
  cases hq

theorem Busy.freed (h : (Ls p).stage = some (i, .freed)) : Busy Ls i :=
  ⟨p, .freed, h, Stage.noConfusion⟩

theorem TableInv.agrees_of (h : TableInv s Ls) (hr : 0 < (s.inode i).ref)
    (hv : (s.inode i).valid = true) (hb : ¬ Busy Ls i) :
    (s.inode i).d = s.dinode (s.inode i).inum ∧ (s.inode i).d.type ≠ 0 :=
  h.agrees i hr hv fun _ hq => hb (.freed hq)

theorem Inv.typed_disk (h : Inv md s Ls) {t : ℕ} (ht : Fact.type i t ∈ (Ls p).know) :
    (s.inode i).d = s.dinode (s.inode i).inum ∧ (s.inode i).d.type = t ∧ t ≠ 0 := by
  obtain ⟨hheld, hv, htype, hb⟩ := (h.table.proc p).typed i t ht
  have hpos : 0 < (s.inode i).ref := by
    rcases hheld with hr | hl
    · exact h.table.ref_pos hr
    · exact h.backs_pos ((h.table.proc p).backed i hl)
  obtain ⟨hd, hne⟩ := h.table.agrees_of hpos hv hb
  rw [htype] at hne
  exact ⟨hd, htype, hne⟩

theorem Inv.locked_pos (h : Inv md s Ls) (hi : i ∈ (Ls p).locks) : 0 < (s.inode i).ref :=
  h.backs_pos ((h.table.proc p).backed i hi)

theorem TableInv.inum_ne (h : TableInv s Ls) (hi : 0 < (s.inode i).ref)
    (hj : 0 < (s.inode j).ref) (hij : i ≠ j) : (s.inode i).inum ≠ (s.inode j).inum :=
  fun heq => hij (h.unique i j hi hj heq)

end Facts

end Xv6.Inodes
