import Xv6.DirectoryWrites

/-! A process that waits for an inode while it has another one locked has locked the directory in
which the inode is named or is being created. That one was made before the inode, so processes do
not wait in a circle. -/
namespace Xv6.Inodes

open Interleaving

variable {md : Mode} {p q : Fin NPROC} {s : State} {Ls : Locs} {i j : Fin NINODE} {c : System}

/-- The inode whose lock the process acquires next. -/
def wants (c : System) (p : Fin NPROC) : Option (Fin NINODE) :=
  match c.prog p with
  | .act (.acquire i _) _ => some i
  | .act (.put i) _ =>
    if (c.state.inode i).ref = 1 ∧ (c.state.inode i).valid ∧ (c.state.inode i).d.nlink = 0
    then some i else none
  | _ => none

def WaitsFor (c : System) (p q : Fin NPROC) : Prop :=
  ∃ i, wants c p = some i ∧ (c.state.inode i).lock = some q

/-- The inode of entry `i` is named in the directory of entry `j`, and not as a dot. -/
def NamedIn (s : State) (j i : Fin NINODE) : Prop :=
  ∃ off, IsEntry (s.data (s.inode j).inum) (s.inode j).d.size off (s.inode i).inum

/-- The process is at the `ilock` of the inode that it creates, with the directory of entry `j`
as `dp` and entry `i` as `ip`. -/
def Creates (c : System) (p : Fin NPROC) (j i : Fin NINODE) : Prop :=
  ∃ k, c.prog p = .act (.acquire i (some j)) k

/-- What is expected of processes that wait for inodes. -/
structure Ordered (c : System) : Prop where
  /-- there is no circle -/
  acyclic : ∀ p, ¬ Relation.TransGen (WaitsFor c) p p
  /-- a process that waits and has a lock has that of the directory in which the inode is named or
  in which it creates the inode, and no other -/
  parent : ∀ p q i j, WaitsFor c p q → wants c p = some i → (c.state.inode j).lock = some p →
    (∀ k, (c.state.inode k).lock = some p → k = j) ∧ (NamedIn c.state j i ∨ Creates c p j i)

variable {birth : ℕ → ℕ}

section Waiting
variable (ho : md.ordered) (hinv : Inv md c.state Ls)
  (htyped : ∀ p, Typed (rules md) (c.prog p) (fun _ L => L.Idle) (Ls p))
include ho hinv htyped

theorem waits_acquire (hw : wants c p = some i) (hl : (c.state.inode i).lock = some q) :
    ∃ new k, c.prog p = .act (.acquire i new) k ∧
      ((Ls p).locks = [] ∨ ∃ j, (Ls p).locks = [j] ∧ (Ls p).MayWait new j i) := by
  have hp := htyped p
  unfold wants at hw
  split at hw
  · next i' new k hprog =>
    rw [hprog] at hp
    cases hw
    exact ⟨new, k, hprog, hp.1.2.2.2 ho⟩
  · next k hprog =>
    rw [hprog] at hp
    split_ifs at hw with hlast
    cases hw
    -- `iput` does not wait
    exfalso
    apply put_not_wait hinv hp.1.2 fine
    simp only [exec, put, acquiresleep]
    rw [if_pos hlast, if_pos (by rw [hl]; rfl)]
  · cases hw

omit ho htyped in
/-- What a process may wait for is named in the directory it has locked, or is new. -/
theorem mayWait_cases {clock : ℕ} {new : Option (Fin NINODE)} (ht : TreeInv birth clock c.state Ls)
    (hm : (Ls p).MayWait new j i) : Fact.type j T_DIR ∈ (Ls p).know ∧
      (NamedIn c.state j i ∨ new = some j) ∧
      ((c.state.dinode (c.state.inode i).inum).type = T_DIR →
        birth (c.state.inode j).inum < birth (c.state.inode i).inum) := by
  obtain ⟨n, hn, hcase⟩ := hm
  have hinum := ((hinv.table.proc p).num i n hn).2
  subst hinum
  rcases hcase with ⟨off, hnamed⟩ | ⟨hj, t, hnew⟩
  · obtain ⟨-, htype, hentry⟩ := (ht.proc p).named j off _ hnamed
    obtain ⟨hd, hdir, -⟩ := hinv.typed_disk htype
    refine ⟨htype, .inl ⟨off, hentry⟩, ?_⟩
    rw [hd] at hdir hentry
    exact ht.entries _ hdir off _ hentry
  · obtain ⟨-, htype, hlt⟩ := (ht.proc p).newborn _ j t hnew
    exact ⟨htype, .inr hj, fun _ => hlt⟩

end Waiting

/-- How late the directory was made that a process has locked. -/
def level (birth : ℕ → ℕ) (s : State) (L : Loc) : ℕ :=
  match L.locks with
  | [j] => birth (s.inode j).inum
  | _ => 0

/-- Along a wait the level grows, between processes that wait and are waited for. -/
theorem level_lt (ho : md.ordered) (hinv : Inv md c.state Ls)
    (htyped : ∀ p, Typed (rules md) (c.prog p) (fun _ L => L.Idle) (Ls p))
    {clock : ℕ} (ht : TreeInv birth clock c.state Ls) (hpq : WaitsFor c p q)
    (hp : ∃ r, WaitsFor c r p) (hq : ∃ r, WaitsFor c q r) :
    level birth c.state (Ls p) < level birth c.state (Ls q) := by
  -- a process that waits for a lock and holds one has this one only
  have hone {r r' : Fin NPROC} {k : Fin NINODE} (hr : WaitsFor c r r')
      (hk : (c.state.inode k).lock = some r) : ∃ i new, wants c r = some i ∧
        (Ls r).locks = [k] ∧ (Ls r).MayWait new k i := by
    obtain ⟨i, hi, hl⟩ := hr
    have hmem := ((hinv.table.proc r).locked k).mpr hk
    obtain ⟨new, -, -, hnil | ⟨j, hj, hm⟩⟩ := waits_acquire ho hinv htyped hi hl
    · rw [hnil] at hmem
      cases hmem
    · rw [hj] at hmem
      cases List.mem_singleton.mp hmem
      exact ⟨i, new, hi, hj, hm⟩
  obtain ⟨r, k, hk, hkp⟩ := hp
  obtain ⟨i, new, hi, hlocks, hm⟩ := hone hpq hkp
  obtain ⟨i', hi', hiq⟩ := hpq
  rw [hi] at hi'
  cases hi'
  obtain ⟨r', hqr⟩ := hq
  obtain ⟨i'', new', -, hlocks', hm'⟩ := hone hqr hiq
  obtain ⟨-, -, hlt⟩ := mayWait_cases hinv ht hm
  obtain ⟨htype, -⟩ := mayWait_cases hinv ht hm'
  obtain ⟨hd, hdir, -⟩ := hinv.typed_disk htype
  unfold level
  rw [hlocks, hlocks']
  rw [hd] at hdir
  exact hlt hdir

/-- In every run of system calls on a tree of directories in which no directory is written to as a
file, locks are taken downwards and nobody waits in a circle. -/
theorem inode_locks_ordered (img : TreeImage) (es : List Event)
    (hes : AdmittedRun ⟨False, True⟩ (boot img.toImage) es) :
    Ordered ((boot img.toImage).run es) := by
  obtain ⟨Ls, hinv, htyped⟩ : WellTyped (rules ⟨False, True⟩) Loc.Idle (Inv ⟨False, True⟩)
    ((boot img.toImage).run es) := wellTyped_run (fun _ => ⟨img, rfl⟩) hes
  obtain ⟨birth, clock, ht⟩ := hinv.tree trivial
  constructor
  · intro p hcycle
    have hgrows {q r : Fin NPROC} (hqr : Relation.TransGen (WaitsFor ((boot img.toImage).run es)) q r)
        (hq : ∃ r', WaitsFor ((boot img.toImage).run es) r' q)
        (hr : ∃ r', WaitsFor ((boot img.toImage).run es) r r') :
        level birth ((boot img.toImage).run es).state (Ls q) <
          level birth ((boot img.toImage).run es).state (Ls r) := by
      induction hqr with
      | single hstep => exact level_lt trivial hinv htyped ht hstep hq hr
      | tail hpath hstep ih =>
        have hlast := Relation.TransGen.tail'_iff.mp hpath
        obtain ⟨b, -, hb⟩ := hlast
        exact (ih ⟨_, hstep⟩).trans (level_lt trivial hinv htyped ht hstep ⟨b, hb⟩ hr)
    obtain ⟨b, -, hb⟩ := Relation.TransGen.tail'_iff.mp hcycle
    obtain ⟨a, ha, -⟩ := Relation.TransGen.head'_iff.mp hcycle
    exact lt_irrefl _ (hgrows hcycle ⟨b, hb⟩ ⟨a, ha⟩)
  · intro p q i j hpq hi hj
    obtain ⟨i', hi', hl⟩ := hpq
    rw [hi] at hi'
    cases hi'
    have hmem := ((hinv.table.proc p).locked j).mpr hj
    obtain ⟨new, next, hprog, hnil | ⟨k, hk, hm⟩⟩ := waits_acquire trivial hinv htyped hi hl
    · rw [hnil] at hmem
      cases hmem
    · rw [hk] at hmem
      cases List.mem_singleton.mp hmem
      obtain ⟨-, hwhere, -⟩ := mayWait_cases hinv ht hm
      refine ⟨?_, hwhere.imp_right fun hnew => ⟨next, by rw [hprog, hnew]⟩⟩
      intro k' hk'
      have hmem' := ((hinv.table.proc p).locked k').mpr hk'
      rw [hk] at hmem'
      exact List.mem_singleton.mp hmem'

/-- Process 2 makes `y/z`, and its child, process 3, changes to it. While process 3 has `z` locked,
process 2 unlinks `z`. -/
def yardWait : List Event :=
  yardSetup++callOf 2 (.mkdir [122]) 27++callOf 2 (.fork 3) 1++callOf 3 (.chdir [122]) 9++
    callOf 2 (.unlink [122]) 9

theorem inode_locks_ordered_yardWait :
    AdmittedRun ⟨False, True⟩ (boot yardImage.toImage) yardWait ∧
      WaitsFor ((boot yardImage.toImage).run yardWait) 2 3 ∧
      (((boot yardImage.toImage).run yardWait).state.inode 1).lock = some 2 ∧
      Ordered ((boot yardImage.toImage).run yardWait) := by
  have hrun : admittedRun false (boot yardImage.toImage) yardWait = true := by decide +kernel
  have hadmitted : AdmittedRun ⟨False, True⟩ (boot yardImage.toImage) yardWait :=
    admittedRun_sound (by simp) hrun
  have hwaits : wants ((boot yardImage.toImage).run yardWait) 2 = some 3 ∧
      (((boot yardImage.toImage).run yardWait).state.inode 3).lock = some 3 := by decide +kernel
  have hholds : (((boot yardImage.toImage).run yardWait).state.inode 1).lock = some 2 := by
    decide +kernel
  exact ⟨hadmitted, ⟨3, hwaits⟩, hholds, inode_locks_ordered yardImage yardWait hadmitted⟩

/-! ## A directory with an entry for its parent -/

/-- After process 0 has got `y/z` open for writing, it writes an entry `w` for `y` to it.  Process 2
in `y` unlinks `z`, and process 3 in `z` unlinks `w`. -/
def yardCircle : List Event :=
  yardRace++callOf 0 (.write 0 (direntBytes [119] 4) DIRENTSIZE) 6++callOf 2 (.fork 3) 1++
    callOf 3 (.chdir [122]) 15++callOf 2 (.unlink [122]) 9++callOf 3 (.unlink [119]) 9

theorem unlinks_wait_for_each_other : (wants ((boot yardImage.toImage).run yardCircle) 2 = some 3 ∧
      (((boot yardImage.toImage).run yardCircle).state.inode 3).lock = some 3) ∧
    (wants ((boot yardImage.toImage).run yardCircle) 3 = some 1 ∧
      (((boot yardImage.toImage).run yardCircle).state.inode 1).lock = some 2) := by
  decide +kernel

theorem inode_locks_circle : ∃ (img : TreeImage) (es : List Event) (p : Fin NPROC),
    Relation.TransGen (WaitsFor ((boot img.toImage).run es)) p p := by
  refine ⟨yardImage, yardCircle, 2, ?_⟩
  obtain ⟨h2, h3⟩ := unlinks_wait_for_each_other
  exact .tail (.single ⟨3, h2⟩) ⟨1, h3⟩

end Xv6.Inodes
