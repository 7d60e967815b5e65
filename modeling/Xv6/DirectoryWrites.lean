import Xv6.InodeTable

/-! A file that is open for writing is no directory, and the contents of a directory change only in
`dirlink` and `sys_unlink`, as long as numbers looked up in directories belong to linked inodes. -/
namespace Xv6.Inodes

open Interleaving Function

variable {md : Mode} {p : Fin NPROC} {s s' : State} {Ls : Locs} {i : Fin NINODE} {c : System}

def changesDir : Call Unit → Option (Fin NINODE)
  | .act (.link j _ _) _ => some j
  | .act (.erase j _) _ => some j
  | _ => none

def truncates : Call Unit → Option (Fin NINODE)
  | .act (.itrunc i) _ => some i
  | _ => none

structure DirsRight (c : System) : Prop where
  writable : ∀ f, IsInode (c.state.file f) → (c.state.file f).writable = true →
    (c.state.inode (c.state.file f).ip).d.type ≠ T_DIR ∧
      (c.state.dinode (c.state.inode (c.state.file f).ip).inum).type ≠ T_DIR
  sizes : ∀ n, (c.state.dinode n).type = T_DIR → (c.state.dinode n).size % DIRENTSIZE = 0
  /-- contents change in `dirlink` and `sys_unlink`, and when the directory is freed -/
  contents : ∀ p x n, (c.state.dinode n).type = T_DIR →
    ((Config.step exec c p x).state.data n = c.state.data n ∧
      ((Config.step exec c p x).state.dinode n).size = (c.state.dinode n).size) ∨
    ∃ j, (c.state.inode j).inum = n ∧ (changesDir (c.prog p) = some j ∨
      truncates (c.prog p) = some j ∧ (c.state.inode j).ref = 1 ∧ (c.state.inode j).d.nlink = 0)

/-! ## Contents -/

variable {n : ℕ}

theorem iupdate_other {d : Dnode} (hn : (s.inode i).inum ≠ n) :
    (s.iupdate i d).data n = s.data n ∧ (s.iupdate i d).dinode n = s.dinode n := by
  rw [iupdate_dinode, if_neg (Ne.symm hn)]
  exact ⟨rfl, rfl⟩

theorem writeAt_other {x : Choice} {bytes : ℕ → UInt8} {off m : ℕ}
    (hn : (s.inode i).inum ≠ n) : (writeAt x s i bytes off m).2.data n = s.data n ∧
      (writeAt x s i bytes off m).2.dinode n = s.dinode n := by
  unfold writeAt
  dsimp only
  split_ifs
  · obtain ⟨hdata, hdinode⟩ := iupdate_other (s := s.setData (s.inode i).inum
      (writei x.ok (s.inode i).d (s.data (s.inode i).inum) bytes off m).2.2)
      (d := (writei x.ok (s.inode i).d (s.data (s.inode i).inum) bytes off m).2.1) hn
    refine ⟨hdata.trans ?_, hdinode⟩
    exact update_of_ne (Ne.symm hn) _ _
  · exact ⟨rfl, rfl⟩

def contentOf : {β : Type} → Op β → Option (Fin NINODE)
  | _, .itrunc i => some i
  | _, .link i _ _ => some i
  | _, .erase i _ => some i
  | _, .write _ i _ _ => some i
  | _, _ => none

theorem exec_contents (h : Inv md s Ls) {β : Type} {o : Op β} {x : Choice} {b : β}
    (hneed : need md (Ls p) o) (hexec : exec p o x s = .done b s')
    (hn : (s.dinode n).type ≠ 0) :
    (s'.data n = s.data n ∧ (s'.dinode n).size = (s.dinode n).size) ∨
      ∃ j, contentOf o = some j ∧ (s.inode j).inum = n := by
  -- inodes with other numbers stay as they are
  have hother {j : Fin NINODE} (hj : contentOf o = some j)
      (hsame : (s.inode j).inum ≠ n → s'.data n = s.data n ∧ s'.dinode n = s.dinode n) :
      (s'.data n = s.data n ∧ (s'.dinode n).size = (s.dinode n).size) ∨
        ∃ j, contentOf o = some j ∧ (s.inode j).inum = n := by
    by_cases hjn : (s.inode j).inum = n
    · exact .inr ⟨j, hj, hjn⟩
    · obtain ⟨hdata, hdinode⟩ := hsame hjn
      exact .inl ⟨hdata, by rw [hdinode]⟩
  cases hdisk : writesDisk o with
  | false =>
    obtain ⟨hdinode, hdata⟩ := exec_disk hdisk hexec
    rw [hdinode, hdata]
    exact .inl ⟨rfl, rfl⟩
  | true =>
    cases o with
    | free i =>
      cases hexec
      refine .inl ⟨rfl, ?_⟩
      rw [iupdate_dinode]
      split_ifs with hi
      · rw [hi, ← (freeing_agrees h hneed (.inr rfl)).1]
      · rfl
    | change i c =>
      cases hexec
      refine .inl ⟨rfl, ?_⟩
      obtain ⟨t, ht⟩ := hneed.2.2
      rw [iupdate_dinode]
      split_ifs with hi
      · rw [hi, ← (h.typed_disk ht).1]
        exact c.apply_size _
      · rfl
    | ialloc dp type =>
      simp only [exec] at hexec
      split at hexec
      · cases hexec
        exact .inl ⟨rfl, rfl⟩
      · next m hfind =>
        cases hexec
        have hne : n ≠ m := by
          rintro rfl
          exact hn (findFree_some hfind).1
        dsimp only
        rw [update_of_ne hne]
        exact .inl ⟨rfl, rfl⟩
    | itrunc i =>
      cases hexec
      apply hother rfl
      intro hi
      obtain ⟨hdata, hdinode⟩ := iupdate_other (s := s.setData (s.inode i).inum fun _ => 0)
        (d := { (s.inode i).d with size := 0 }) hi
      refine ⟨hdata.trans ?_, hdinode⟩
      exact update_of_ne (Ne.symm hi) _ _
    | link j name m =>
      simp only [exec, link] at hexec
      split at hexec
      · cases hexec
      · cases hexec
        exact hother rfl writeAt_other
    | erase j off =>
      rw [exec_erase] at hexec
      cases hexec
      exact hother rfl writeAt_other
    | write f i bytes m =>
      cases hexec
      exact hother rfl writeAt_other
    | _ => cases hdisk

theorem dirs_contents (hc : md.careful) (h : WellTyped (rules md) Loc.Idle (Inv md) c) (x : Choice)
    (hn : (c.state.dinode n).type = T_DIR) :
    ((Config.step exec c p x).state.data n = c.state.data n ∧
      ((Config.step exec c p x).state.dinode n).size = (c.state.dinode n).size) ∨
    ∃ j, (c.state.inode j).inum = n ∧ (changesDir (c.prog p) = some j ∨
      truncates (c.prog p) = some j ∧ (c.state.inode j).ref = 1 ∧
        (c.state.inode j).d.nlink = 0) := by
  obtain ⟨Ls, hinv, htyped⟩ := h
  have hp := htyped p
  have hne : (c.state.dinode n).type ≠ 0 := by
    rw [hn]
    decide
  unfold Config.step
  split_ifs with hstop
  · exact .inl ⟨rfl, rfl⟩
  cases hprog : c.prog p with
  | ret u => exact .inl ⟨rfl, rfl⟩
  | act o k =>
    rw [hprog] at hp
    dsimp only
    cases hexec : exec p o x c.state with
    | wait | stop => exact .inl ⟨rfl, rfl⟩
    | done b s =>
      rcases exec_contents hinv hp.1.2 hexec hne with hsame | ⟨j, hj, hjn⟩
      · exact .inl hsame
      refine .inr ⟨j, hjn, ?_⟩
      cases o with
      | link | erase => cases hj; exact .inl rfl
      | itrunc i =>
        cases hj
        rcases hp.1.2 with hs | ⟨-, -, ht⟩
        · exact .inr ⟨rfl, ((hinv.links hc).proc p).alone _ _ hs (.inl rfl),
            ((hinv.table.proc p).stage _ _ hs).2.2.2 (.inl rfl)⟩
        · -- a file that `sys_open` truncates
          obtain ⟨hd, htype, -⟩ := hinv.typed_disk ht
          rw [← hjn, ← hd, htype] at hn
          cases hn
      | write f i bytes m =>
        cases hj
        obtain ⟨-, -, hopened, t, ht⟩ := hp.1.2
        obtain ⟨-, hinode, hip, hw⟩ := (hinv.files.proc p).opened _ _ _ hopened
        have howner := (hinv.files.owner _ hinode).2.2 hc hw
        rw [hip, (hinv.typed_disk ht).1, hjn] at howner
        exact absurd hn howner
      | _ => cases hj

/-- In every run of system calls in which numbers looked up in directories belong to linked inodes,
only `dirlink` and `sys_unlink` write directories. -/
theorem directories_written_by_kernel (img : TreeImage) (es : List Event)
    (hes : AdmittedRun ⟨True, True⟩ (boot img.toImage) es) :
    DirsRight ((boot img.toImage).run es) := by
  have h := wellTyped_run (fun _ => ⟨img, rfl⟩) hes
  refine ⟨?_, ?_, fun p x n => dirs_contents trivial h x⟩
  all_goals obtain ⟨Ls, hinv, -⟩ := h
  · intro f hf hw
    obtain ⟨hv, hb, hne⟩ := hinv.files.owner f hf
    have hdir := hne trivial hw
    refine ⟨hdir, ?_⟩
    rw [← (hinv.table.agrees_of (hinv.table.ref_pos_file hf) hv hb).1]
    exact hdir
  · obtain ⟨birth, clock, ht⟩ := hinv.tree trivial
    exact ht.sizes

/-! ## A new file that becomes a directory -/

def yardImage : TreeImage where
  ninodes := 10
  dinode n := if n = 1 then ⟨T_DIR, 0, 0, 3, 64⟩ else if n = 2 then ⟨T_DIR, 0, 0, 2, 48⟩
    else if n = 3 then ⟨T_DIR, 0, 0, 1, 32⟩ else if n = 4 then ⟨T_DIR, 0, 0, 1, 32⟩
    else ⟨0, 0, 0, 0, 0⟩
  data n := if n = 1 then dirBytes [(dot, 1), (dotdot, 1), ([97], 2), ([121], 4)]
    else if n = 2 then dirBytes [(dot, 2), (dotdot, 1), ([98], 3)]
    else if n = 3 then dirBytes [(dot, 3), (dotdot, 2)] else dirBytes [(dot, 4), (dotdot, 1)]
  root := rfl
  ninodes_le := by decide
  sizes m hm := by
    split_ifs at hm ⊢ <;> rfl
  depth n := if n = 1 then 0 else if n = 3 then 2 else 1
  height := 3
  depth_lt m := by split_ifs <;> decide
  deeper m hm off n he hn := by
    have hm' : m = 1 ∨ m = 2 ∨ m = 3 ∨ m = 4 := by
      by_contra hne
      simp only [not_or] at hne
      simp [hne] at hm
    clear hn
    rcases hm' with rfl | rfl | rfl | rfl
    all_goals
      obtain ⟨e, hmem, rfl, hdot, hdotdot⟩ := isEntry_dirBytes (by simp [dot, dotdot, DIRSIZ]) he
      clear he
      revert e
      decide

/-- `/a` and `/a/b` are removed while process 1 is in `a/b`, and process 2 is in `y`. -/
def yardSetup : List Event :=
  callOf 0 (.fork 1) 1++callOf 0 (.fork 2) 1++callOf 1 (.chdir [97, 47, 98]) 22++
    callOf 2 (.chdir [121]) 15++callOf 0 (.unlink [97, 47, 98]) 27++callOf 0 (.unlink [97]) 24

theorem directories_written_by_kernel_yardSetup :
    AdmittedRun ⟨True, True⟩ (boot yardImage.toImage) yardSetup ∧
      DirsRight ((boot yardImage.toImage).run yardSetup) := by
  have hrun : admittedRun true (boot yardImage.toImage) yardSetup = true := by decide +kernel
  have hadmitted : AdmittedRun ⟨True, True⟩ (boot yardImage.toImage) yardSetup :=
    admittedRun_sound (by simp) hrun
  exact ⟨hadmitted, directories_written_by_kernel yardImage yardSetup hadmitted⟩

/-- Process 0 creates a file in the root, which gets the number that `/a` had.  Before it has a
reference, process 1 looks up `..`, finds an inode without links and frees it with its `iput`, and
process 2 makes a directory of the number.  Then process 0 goes on and opens it for writing. -/
def yardRace : List Event :=
  yardSetup++callOf 0 (.open [102] (O_CREATE+O_RDWR)) 9++callOf 1 (.chdir dotdot) 17++
    callOf 2 (.mkdir [122]) 27++List.replicate 14 (.go 0 fine)

theorem writable_directory : IsInode (((boot yardImage.toImage).run yardRace).state.file 0) ∧
    (((boot yardImage.toImage).run yardRace).state.file 0).writable = true ∧
    (((boot yardImage.toImage).run yardRace).state.inode
      (((boot yardImage.toImage).run yardRace).state.file 0).ip).d.type = T_DIR := by
  decide +kernel

theorem directory_opened_for_writing :
    ∃ (img : TreeImage) (es : List Event), ¬ DirsRight ((boot img.toImage).run es) := by
  refine ⟨yardImage, yardRace, ?_⟩
  intro h
  obtain ⟨hinode, hwritable, htype⟩ := writable_directory
  exact (h.writable 0 hinode hwritable).1 htype

end Xv6.Inodes
