import Xv6.InodeExec

/-! The kernel starts with the first process in the root directory. Processes start programs that
keep to the rules, and their operations interleave. -/
namespace Xv6.Inodes

open Interleaving Function

variable {md : Mode} {p q : Fin NPROC} {s : State} {Ls : Locs}

structure Image where
  ninodes : ℕ
  dinode : ℕ → Dnode
  data : ℕ → ℕ → UInt8
  root : (dinode ROOTINO).type = T_DIR

structure TreeImage extends Image where
  ninodes_le : ninodes ≤ 2^16
  sizes : ∀ m, (dinode m).type = T_DIR → (dinode m).size % DIRENTSIZE = 0
  depth : ℕ → ℕ
  height : ℕ
  depth_lt : ∀ m, depth m < height
  deeper : ∀ m, (dinode m).type = T_DIR → ∀ off n, IsEntry (data m) (dinode m).size off n →
    (dinode n).type = T_DIR → depth m < depth n

def noFile : OpenFile := ⟨.FD_NONE, 0, false, false, 0, 0, 0⟩

def bootState (img : Image) : State where
  ninodes := img.ninodes
  inode i := if i = 0 then ⟨ROOTINO, 1, none, false, ⟨0, 0, 0, 0, 0⟩⟩
    else ⟨0, 0, none, false, ⟨0, 0, 0, 0, 0⟩⟩
  dinode := img.dinode
  data := img.data
  file _ := noFile
  proc p := ⟨if p = 0 then some 0 else none, fun _ => none⟩

def boot (img : Image) : System := ⟨bootState img, fun _ => .ret (), none⟩

def bootLocs : Locs := fun p =>
  { alive := decide (p = 0), refs := [], locks := [], cwd := if p = 0 then some 0 else none,
    slots := fun _ => none, gone := none, files := [], stage := none, know := ∅ }

theorem boot_total (img : Image) {w : Loc → ℕ} {i : Fin NINODE}
    (hw : ∀ p, w (bootLocs p) = (bootLocs p).holds i) :
    total w (bootState img) bootLocs i = if i = 0 then 1 else 0 := by
  have hfiles : ∀ f, fileHolds ((bootState img).file f) i = 0 := by
    intro f
    simp [bootState, noFile, fileHolds, IsInode]
  have hholds : ∀ p, (bootLocs p).holds i = if p = 0 ∧ i = 0 then 1 else 0 := by
    intro p
    by_cases hp : p = 0
    · simp [bootLocs, Loc.holds, hp, eq_comm]
    · simp [bootLocs, Loc.holds, hp]
  unfold total
  simp only [hw, hholds, hfiles, Finset.sum_const_zero, Nat.add_zero]
  by_cases hi : i = 0
  · simp [hi]
  · simp [hi]

theorem boot_holds (p : Fin NPROC) (i : Fin NINODE) : (bootLocs p).keeps i = (bootLocs p).holds i :=
  Loc.keeps_of_not_ends (Loc.not_ends_of_none rfl)

theorem boot_ref (img : Image) (i : Fin NINODE) :
    ((bootState img).inode i).ref = if i = 0 then 1 else 0 := by
  unfold bootState
  dsimp only
  split_ifs <;> rfl

theorem boot_tableInv (img : Image) : TableInv (bootState img) bootLocs := by
  have hvalid (i : Fin NINODE) : ((bootState img).inode i).valid = false := by
    unfold bootState
    dsimp only
    split_ifs <;> rfl
  constructor
  · intro i
    rw [boot_ref]
    exact (boot_total img fun _ => rfl).symm
  · intro i j hi hj _
    rw [boot_ref] at hi hj
    split_ifs at hi hj with h1 h2
    · rw [h1, h2]
    all_goals omega
  · intro i _ hv
    rw [hvalid] at hv
    cases hv
  · intro p
    constructor
    · intro i
      have hlock : ((bootState img).inode i).lock = none := by
        unfold bootState
        dsimp only
        split_ifs <;> rfl
      rw [hlock]
      simp [bootLocs]
    · intro i hi
      cases hi
    · exact List.nodup_nil
    · intro i st hst
      cases hst
    · exact fun i t ht => ht.elim
    · exact fun i n hn => hn.elim
    · exact fun i hi => hi
    · by_cases hp : p = 0 <;> simp [bootLocs, bootState, hp]
    · exact fun _ => ⟨rfl, rfl, rfl, rfl, rfl, rfl⟩
    · exact fun i st _ t ht => ht.elim

theorem boot_fileInv (md : Mode) (img : Image) : FileInv md (bootState img) bootLocs := by
  constructor
  · intro f
    unfold fileRefs
    simp [bootState, noFile, bootLocs, Loc.holdsFile, fdRefs]
  · exact fun _ _ => rfl
  · intro f hf
    rcases hf with h' | h' <;> cases h'
  · intro p
    constructor
    · exact fun _ _ => rfl
    · exact fun _ _ => rfl
    · exact fun f hf => hf.elim
    · exact fun f i w hf => hf.elim

theorem boot_treeInv (img : TreeImage) :
    TreeInv img.depth img.height (bootState img.toImage) bootLocs := by
  constructor
  · exact img.ninodes_le
  · intro i
    unfold bootState
    dsimp only
    split_ifs <;> decide
  · exact img.sizes
  · exact img.deeper
  · exact img.depth_lt
  · intro p
    constructor
    · exact fun j off n hn => hn.elim
    · exact fun n j t hn => hn.elim

theorem boot_linkInv (img : Image) : LinkInv (bootState img) bootLocs := by
  constructor
  · intro i hi
    have hi0 : i = 0 := by
      by_contra hne
      unfold lasting at hi
      rw [boot_total img fun p => boot_holds p i, if_neg hne] at hi
      omega
    rw [hi0]
    change (img.dinode ROOTINO).type ≠ 0
    rw [img.root]
    decide
  · intro p
    constructor
    · exact fun n t hn => hn.elim
    · exact fun n t q u hn => hn.elim
    · exact fun i t hi => hi.elim
    · intro i st hst
      cases hst

variable {img : Image} {c : System} {es : List Event}

theorem boot_inv (htree : md.ordered → ∃ t : TreeImage, t.toImage = img) :
    Inv md (bootState img) bootLocs where
  table := boot_tableInv img
  files := boot_fileInv md img
  tree ho := by
    obtain ⟨t, rfl⟩ := htree ho
    exact ⟨t.depth, t.height, boot_treeInv t⟩
  links _ := boot_linkInv img

/-! ## Starting a program -/

theorem Inv.reset (h : Inv md s Ls) (hidle : (Ls p).Idle) :
    Inv md s (update Ls p { Ls p with know := ∅ }) where
  table := by
    apply TableSame.tableInv _ h
    exact
      { inode := rfl, dinode := rfl, holds := fun _ _ => rfl, proc := fun _ => rfl, refs := rfl
        locks := rfl, cwd := rfl, stage := rfl, alive := rfl
        backed := fun i hi => by
          rw [hidle.locks] at hi
          cases hi
        typed := fun _ _ ht => ht.elim
        num := fun _ _ hn => hn.elim
        dead := fun _ => ⟨rfl, rfl, rfl⟩ }
  files := file_know h (fun _ hf => hf.elim) fun _ _ _ hf => hf.elim
  tree ho := by
    obtain ⟨birth, clock, ht⟩ := h.tree ho
    exact ⟨birth, clock, tree_forget ht (.refl s) fun _ _ _ hφ => hφ.elim⟩
  links hc := link_know (h.links hc) rfl (fun _ => ⟨rfl, rfl⟩) (fun _ _ => rfl) rfl rfl rfl
    fun _ hφ _ => hφ.elim

/-- The program keeps to the rules in a process that is not inside another program. -/
def Disciplined (md : Mode) (x : Call Unit) : Prop :=
  ∀ L : Loc, L.Calls → L.know = ∅ → Typed (rules md) x (fun _ L' => L'.Idle) L

theorem syscall_disciplined (md : Mode) (c : Syscall) : Disciplined md c.prog :=
  fun _ => typed_syscall c

theorem wellTyped_start (h : WellTyped (rules md) Loc.Idle (Inv md) c)
    (hp : (c.state.proc p).cwd.isSome) {x : Call Unit} (hx : Disciplined md x) :
    WellTyped (rules md) Loc.Idle (Inv md) (c.start p x) := by
  apply h.start
  intro Ls hinv hidle
  have halive : (Ls p).alive = true := ((hinv.table.proc p).alive).trans hp
  refine ⟨update Ls p { Ls p with know := ∅ }, hinv.reset hidle,
    fun q hq => update_of_ne hq _ _, ?_⟩
  rw [update_self]
  apply hx
  · exact { refs := hidle.refs, locks := hidle.locks, files := hidle.files, gone := hidle.gone
            stage := hidle.stage, cwd := hidle.cwd, alive := halive }
  · rfl

/-! ## Runs -/

/-- A process starts a program, or goes on with the one it has started. -/
inductive Act where
  | start (p : Fin NPROC) (x : Call Unit)
  | go (p : Fin NPROC) (x : Choice)

def System.act (c : System) : Act → System
  | .start p x => if (c.state.proc p).cwd.isSome then c.start p x else c
  | .go p x => Config.step exec c p x

def System.acts (c : System) (as : List Act) : System := as.foldl System.act c

/-- The act starts a program that keeps to the rules, or is admitted by the state. -/
def Proper (md : Mode) (c : System) : Act → Prop
  | .start _ x => Disciplined md x
  | .go p _ => Config.Admitted (Admits md) c p

def ProperRun (md : Mode) : System → List Act → Prop
  | _, [] => True
  | c, a :: as => Proper md c a ∧ ProperRun md (c.act a) as

theorem wellTyped_act (h : WellTyped (rules md) Loc.Idle (Inv md) c) {a : Act}
    (ha : Proper md c a) : WellTyped (rules md) Loc.Idle (Inv md) (c.act a) := by
  cases a with
  | start p x =>
    dsimp only [System.act]
    split_ifs with hp
    · exact wellTyped_start h hp ha
    · exact h
  | go p x => exact h.step (rules_sound md) ha x

theorem wellTyped_acts (h : WellTyped (rules md) Loc.Idle (Inv md) c)
    {as : List Act} (has : ProperRun md c as) :
    WellTyped (rules md) Loc.Idle (Inv md) (c.acts as) := by
  induction as generalizing c with
  | nil => exact h
  | cons a as ih => exact ih (wellTyped_act h has.1) has.2

theorem wellTyped_boot (htree : md.ordered → ∃ t : TreeImage, t.toImage = img) :
    WellTyped (rules md) Loc.Idle (Inv md) (boot img) := by
  refine ⟨bootLocs, boot_inv htree, ?_⟩
  intro p
  refine ⟨rfl, rfl, rfl, rfl, rfl, ?_⟩
  by_cases hp : p = 0 <;> simp [bootLocs, hp]

/-! ## System calls -/

def Event.act : Event → Act
  | .call p c => .start p c.prog
  | .go p x => .go p x

theorem act_event (c : System) (e : Event) : c.act e.act = c.step e := by
  cases e <;> rfl

theorem acts_events (c : System) (es : List Event) : c.acts (es.map Event.act) = c.run es := by
  unfold System.acts System.run
  rw [List.foldl_map]
  simp only [act_event]

/-- Each operation of the run is admitted by the state it happens in. -/
def AdmittedRun (md : Mode) : System → List Event → Prop
  | _, [] => True
  | c, e :: es => (∀ p x, e = .go p x → Config.Admitted (Admits md) c p) ∧
      AdmittedRun md (c.step e) es

theorem AdmittedRun.proper (h : AdmittedRun md c es) :
    ProperRun md c (es.map Event.act) := by
  induction es generalizing c with
  | nil => trivial
  | cons e es ih =>
    refine ⟨?_, ?_⟩
    · cases e with
      | call p call => exact syscall_disciplined md call
      | go p x => exact h.1 p x rfl
    · rw [act_event]
      exact ih h.2

/-- Every run of system calls whose operations are admitted keeps the invariant. -/
theorem wellTyped_run (htree : md.ordered → ∃ t : TreeImage, t.toImage = img)
    (h : AdmittedRun md (boot img) es) :
    WellTyped (rules md) Loc.Idle (Inv md) ((boot img).run es) := by
  rw [← acts_events]
  exact wellTyped_acts (wellTyped_boot htree) h.proper

/-- The same as a computation. -/
def admittedNext (careful : Bool) (c : System) (p : Fin NPROC) : Bool :=
  match c.prog p with
  | .act (.iget n) _ => !careful || decide (Linked c.state n)
  | .act (.write _ i _ _) _ => careful || decide ((c.state.inode i).d.type ≠ T_DIR)
  | _ => true

def admittedRun (careful : Bool) : System → List Event → Bool
  | _, [] => true
  | c, .call p call :: es => admittedRun careful (c.step (.call p call)) es
  | c, .go p x :: es => admittedNext careful c p && admittedRun careful (c.step (.go p x)) es

theorem admittedNext_sound {careful : Bool} (hcareful : md.careful ↔ careful = true)
    (h : admittedNext careful c p = true) : Config.Admitted (Admits md) c p := by
  unfold admittedNext at h
  unfold Config.Admitted
  cases hprog : c.prog p with
  | ret u => trivial
  | act o k =>
    rw [hprog] at h
    cases o with
    | iget n =>
      intro hc
      rw [hcareful] at hc
      simpa [hc] using h
    | write f i bytes n =>
      intro hc _
      rw [hcareful] at hc
      simpa [hc] using h
    | _ => trivial

theorem admittedRun_sound {careful : Bool} (hcareful : md.careful ↔ careful = true)
    (h : admittedRun careful c es = true) : AdmittedRun md c es := by
  induction es generalizing c with
  | nil => trivial
  | cons e es ih =>
    cases e with
    | call p call => exact ⟨fun _ _ h' => (Event.noConfusion h'), ih h⟩
    | go p x =>
      rw [admittedRun, Bool.and_eq_true] at h
      refine ⟨?_, ih h.2⟩
      intro q y hq
      cases hq
      exact admittedNext_sound hcareful h.1

/-! ## Small disks and runs -/

def dirBytes (entries : List (Name × ℕ)) : ℕ → UInt8 := fun k =>
  match entries[k/DIRENTSIZE]? with
  | some (name, inum) => direntBytes name inum (k % DIRENTSIZE)
  | none => 0

theorem isEntry_dirBytes {entries : List (Name × ℕ)}
    (hok : ∀ e ∈ entries, e.2 < 2^16 ∧ e.1.length ≤ DIRSIZ ∧ ∀ c ∈ e.1, c ≠ 0) {off n : ℕ}
    (h : IsEntry (dirBytes entries) (DIRENTSIZE*entries.length) off n) :
    ∃ e ∈ entries, e.2 = n ∧ e.1 ≠ dot ∧ e.1 ≠ dotdot := by
  have hal := h.aligned
  have hin := h.inside
  have hk : off/DIRENTSIZE < entries.length := by
    simp only [DIRENTSIZE] at *
    omega
  obtain ⟨hnum, hlen, hzero⟩ := hok _ (List.getElem_mem hk)
  have hbytes : ∀ k < DIRENTSIZE, dirBytes entries (off+k) =
      direntBytes entries[off/DIRENTSIZE].1 entries[off/DIRENTSIZE].2 k := by
    intro k hk'
    have hdiv : (off+k)/DIRENTSIZE = off/DIRENTSIZE := by
      simp only [DIRENTSIZE] at *
      omega
    have hmod : (off+k) % DIRENTSIZE = k := by
      simp only [DIRENTSIZE] at *
      omega
    unfold dirBytes
    rw [hdiv, hmod, List.getElem?_eq_getElem hk]
  obtain ⟨hinum, hname⟩ := entry_congr hbytes
  rw [direntInum_direntBytes _ hnum] at hinum
  rw [direntName_direntBytes _ hlen hzero] at hname
  refine ⟨_, List.getElem_mem hk, hinum.symm.trans h.inum, ?_, ?_⟩
  · rw [← hname]
    exact h.dot
  · rw [← hname]
    exact h.dotdot

def fine : Choice := ⟨fun _ => true, 0⟩

/-- `p` makes a system call and goes on for `n` operations. -/
def callOf (p : Fin NPROC) (c : Syscall) (n : ℕ) : List Event :=
  .call p c :: List.replicate n (.go p fine)

end Xv6.Inodes
