import Xv6.InodeTableSteps

/-! Effects on the table do not free the inode of a file; effects on files keep their counts. -/
namespace Xv6.Inodes

open Interleaving Function

variable {md : Mode} {p q : Fin NPROC} {s s' : State} {Ls : Locs} {L' : Loc} {i j : Fin NINODE}
  {f : Fin NFILE}

/-! ## Effects on the table -/

/-- Files and descriptors stay as they are, and `p` starts to free no inode of a file. -/
structure FileKept (p : Fin NPROC) (s : State) (Ls : Locs) (s' : State) (L' : Loc) : Prop where
  file : s'.file = s.file
  proc : ∀ q, (s'.proc q).ofile = (s.proc q).ofile
  files : L'.files = (Ls p).files
  slots : L'.slots = (Ls p).slots
  gone : L'.gone = (Ls p).gone
  fresh : ∀ f, Fact.fresh f ∈ L'.know → Fact.fresh f ∈ (Ls p).know
  opened : ∀ f i w, Fact.opened f i w ∈ L'.know → Fact.opened f i w ∈ (Ls p).know ∨
    (∃ fd, (Ls p).slots fd = some f) ∧ IsInode (s.file f) ∧ (s.file f).ip = i ∧
      (s.file f).writable = w
  stage : ∀ f, IsInode (s.file f) → ∀ st, st ≠ .dropping →
    L'.stage = some ((s.file f).ip, st) → (Ls p).stage = some ((s.file f).ip, st)

theorem FileKept.of_know (hfile : s'.file = s.file)
    (hproc : ∀ q, (s'.proc q).ofile = (s.proc q).ofile) (hfiles : L'.files = (Ls p).files)
    (hslots : L'.slots = (Ls p).slots) (hgone : L'.gone = (Ls p).gone)
    (hknow : L'.know ⊆ (Ls p).know)
    (hstage : ∀ f, IsInode (s.file f) → ∀ st, st ≠ .dropping →
      L'.stage = some ((s.file f).ip, st) → (Ls p).stage = some ((s.file f).ip, st)) :
    FileKept p s Ls s' L' :=
  ⟨hfile, hproc, hfiles, hslots, hgone, fun _ hf => hknow hf, fun _ _ _ hf => .inl (hknow hf),
    hstage⟩

theorem FileKept.fileInv (h : Inv md s Ls) (hk : FileKept p s Ls s' L')
    (hsame : ∀ j, 0 < (s.inode j).ref → (s.inode j).valid = true → ¬ Busy Ls j →
      (s'.inode j).valid = true ∧ (s'.inode j).d.type = (s.inode j).d.type) :
    FileInv md s' (update Ls p L') := by
  have hholds (f : Fin NFILE) : L'.holdsFile f = (Ls p).holdsFile f := by
    unfold Loc.holdsFile
    rw [hk.files, hk.slots]
  constructor
  · intro f
    have hrefs := fileRefs_loc Ls f p L'
    have hold := h.files.counted f
    have heq := hholds f
    rw [hk.file]
    omega
  · intro f
    rw [hk.file]
    exact h.files.free f
  · intro f hf
    rw [hk.file] at hf ⊢
    obtain ⟨hv, hb, hw⟩ := h.files.owner f hf
    obtain ⟨hv', htype⟩ := hsame _ (h.table.ref_pos_file hf) hv hb
    rw [htype]
    refine ⟨hv', fun hb' => hb ?_, hw⟩
    rcases busy_cases hb' with hold | ⟨st, hst, hne⟩
    · exact hold
    · exact ⟨p, st, hk.stage f hf st hne hst, hne⟩
  · intro q
    by_cases hq : q = p
    · subst hq
      have hold := h.files.proc q
      constructor
      all_goals rw [update_self]
      · rw [hk.proc, hk.slots, hk.gone]
        exact hold.slots
      · rw [hk.slots, hk.gone]
        exact hold.gone
      · intro f hf
        rw [hk.file, hholds]
        exact hold.fresh f (hk.fresh f hf)
      · intro f i w hf
        rw [hk.file, hk.slots]
        rcases hk.opened f i w hf with hold' | hnew
        · exact hold.opened f i w hold'
        · exact hnew
    · have hL : update Ls p L' q = Ls q := update_of_ne hq _ _
      have hold := h.files.proc q
      constructor
      all_goals rw [hL]
      · rw [hk.proc]
        exact hold.slots
      · exact hold.gone
      · rw [hk.file]
        exact hold.fresh
      · rw [hk.file]
        exact hold.opened

theorem FileKept.table (h : Inv md s Ls) (hk : FileKept p s Ls s' L') (ht : KeptTable s s') :
    FileInv md s' (update Ls p L') := by
  apply hk.fileInv h
  intro j hr hv _
  obtain ⟨-, hv', hd⟩ := ht.same j hr
  rw [hv', hd]
  exact ⟨hv, rfl⟩

/-- An inode that a file refers to is not the one whose last reference `p` has. -/
theorem file_ne_last (h : Inv md s Ls) (hi : i ∈ (Ls p).refs) (href : (s.inode i).ref = 1)
    (hf : IsInode (s.file f)) : (s.file f).ip ≠ i := by
  intro hip
  have hle := file_le_total (·.holds i) s Ls i p f
  have hpos := Loc.holds_pos hi
  have hcounted := h.table.counted i
  have hone : fileHolds (s.file f) i = 1 := by
    rw [← hip]
    exact fileHolds_ip hf
  unfold outstanding at hcounted
  omega

/-! ## Effects on files -/

/-- `p` changes the file `f` and its own descriptors, and no entry of the table. -/
theorem file_change (fl : OpenFile) (h : FileInv md s Ls)
    (hfile : s'.file = update s.file f fl) (hinode : s'.inode = s.inode)
    (hstage : L'.stage = (Ls p).stage)
    (hproc : ∀ q, q ≠ p → (s'.proc q).ofile = (s.proc q).ofile)
    (hcounted : ∀ g, L'.holdsFile g+(if g = f then (s.file f).ref else 0) =
      (Ls p).holdsFile g+if g = f then fl.ref else 0)
    (hfree : fl.ref = 0 → fl.type = .FD_NONE)
    (howner : IsInode fl → IsInode (s.file f) ∧ fl.ip = (s.file f).ip ∧
      fl.writable = (s.file f).writable ∨
      (s.inode fl.ip).valid = true ∧ ¬ Busy Ls fl.ip ∧
        (md.careful → fl.writable = true → (s.inode fl.ip).d.type ≠ T_DIR))
    (hfresh : ∀ q, q ≠ p → Fact.fresh f ∈ (Ls q).know →
      fl.ref = (s.file f).ref ∧ fl.type = (s.file f).type)
    (hopened : ∀ q, q ≠ p → ∀ i w, Fact.opened f i w ∈ (Ls q).know → IsInode fl ∧
      fl.ip = (s.file f).ip ∧ fl.writable = (s.file f).writable)
    (hslots : ∀ fd, L'.gone ≠ some fd → (s'.proc p).ofile fd = L'.slots fd)
    (hgone : ∀ fd, L'.gone = some fd → L'.slots fd = none)
    (hownFresh : ∀ g, Fact.fresh g ∈ L'.know → if g = f then fl.ref = 1 ∧ fl.type = .FD_NONE ∧
      0 < L'.holdsFile f else Fact.fresh g ∈ (Ls p).know)
    (hownOpened : ∀ g i w, Fact.opened g i w ∈ L'.know → (∃ fd, L'.slots fd = some g) ∧
      if g = f then IsInode fl ∧ fl.ip = i ∧ fl.writable = w
      else Fact.opened g i w ∈ (Ls p).know) : FileInv md s' (update Ls p L') := by
  have hbusy (j : Fin NINODE) : Busy (update Ls p L') j ↔ Busy Ls j :=
    SameStage.busy (.of_eq hstage)
  constructor
  · intro g
    have hrefs := fileRefs_loc Ls g p L'
    have hold := h.counted g
    have hnew := hcounted g
    rw [hfile, update_apply]
    split_ifs at hnew ⊢ with hg
    · subst hg
      omega
    · omega
  · intro g
    rw [hfile, update_apply]
    split_ifs
    · exact hfree
    · exact h.free g
  · intro g
    rw [hfile, hinode, update_apply]
    split_ifs
    · intro hfl
      rw [hbusy]
      rcases howner hfl with ⟨hf, hip, hw⟩ | hnew
      · rw [hip, hw]
        exact h.owner f hf
      · exact hnew
    · rw [hbusy]
      exact h.owner g
  · intro q
    have hold := h.proc q
    by_cases hq : q = p
    · subst hq
      constructor
      all_goals rw [update_self]
      · exact hslots
      · exact hgone
      · intro g hg
        have hnew := hownFresh g hg
        have hsame := hcounted g
        rw [hfile, update_apply]
        split_ifs at hnew hsame ⊢ with heq
        · rwa [heq]
        · obtain ⟨href, htype, hpos⟩ := hold.fresh g hnew
          exact ⟨href, htype, by omega⟩
      · intro g i w hg
        obtain ⟨hfd, hnew⟩ := hownOpened g i w hg
        rw [hfile, update_apply]
        refine ⟨hfd, ?_⟩
        split_ifs at hnew ⊢
        · exact hnew
        · exact (hold.opened g i w hnew).2
    · have hL : update Ls p L' q = Ls q := update_of_ne hq _ _
      constructor
      all_goals rw [hL]
      · rw [hproc q hq]
        exact hold.slots
      · exact hold.gone
      · intro g hg
        rw [hfile, update_apply]
        split_ifs with heq
        · subst heq
          obtain ⟨href, htype⟩ := hfresh q hq hg
          rw [href, htype]
          exact hold.fresh g hg
        · exact hold.fresh g hg
      · intro g i w hg
        obtain ⟨hfd, hinode, hip, hw⟩ := hold.opened g i w hg
        rw [hfile, update_apply]
        split_ifs with heq
        · subst heq
          obtain ⟨hfl, hip', hw'⟩ := hopened q hq i w hg
          exact ⟨hfd, hfl, hip'.trans hip, hw'.trans hw⟩
        · exact ⟨hfd, hinode, hip, hw⟩

theorem file_slots (h : FileInv md s Ls) (hfile : s'.file = s.file) (hinode : s'.inode = s.inode)
    (hstage : L'.stage = (Ls p).stage)
    (hproc : ∀ q, q ≠ p → (s'.proc q).ofile = (s.proc q).ofile)
    (hholds : ∀ g, L'.holdsFile g = (Ls p).holdsFile g)
    (hslots : ∀ fd, L'.gone ≠ some fd → (s'.proc p).ofile fd = L'.slots fd)
    (hgone : ∀ fd, L'.gone = some fd → L'.slots fd = none)
    (hfresh : ∀ g, Fact.fresh g ∈ L'.know → Fact.fresh g ∈ (Ls p).know)
    (hopened : ∀ g i w, Fact.opened g i w ∈ L'.know → (∃ fd, L'.slots fd = some g) ∧
      Fact.opened g i w ∈ (Ls p).know) : FileInv md s' (update Ls p L') := by
  refine file_change (f := 0) (s.file 0) h ?_ hinode hstage hproc (fun g => by rw [hholds])
    (h.free 0) (fun hf => .inl ⟨hf, rfl, rfl⟩) (fun _ _ _ => ⟨rfl, rfl⟩)
    (fun q _ i w hf => ⟨((h.proc q).opened 0 i w hf).2.1, rfl, rfl⟩) hslots hgone
    (fun g hg => ?_) fun g i w hg => ⟨(hopened g i w hg).1, ?_⟩
  · rw [update_eq_self, hfile]
  · have hold := hfresh g hg
    split_ifs with h0
    · subst h0
      rw [hholds]
      exact (h.proc p).fresh 0 hold
    · exact hold
  · have hold := (hopened g i w hg).2
    split_ifs with h0
    · subst h0
      exact ((h.proc p).opened 0 i w hold).2
    · exact hold

@[simp] theorem setFile_file (s : State) (f g : Fin NFILE) (fl : OpenFile) :
    (s.setFile f fl).file g = if g = f then fl else s.file g := by
  simp [State.setFile, update_apply]

theorem setFd_ofile (s : State) (p : Fin NPROC) (fd fd' : Fin NOFILE) (o : Option (Fin NFILE)) :
    ((setFd p s fd o).proc p).ofile fd' = if fd' = fd then o else (s.proc p).ofile fd' := by
  simp [setFd, State.setProc, update_apply]

theorem setFd_other (s : State) (fd : Fin NOFILE) (o : Option (Fin NFILE)) (hq : q ≠ p) :
    ((setFd p s fd o).proc q).ofile = (s.proc q).ofile := by
  simp [setFd, State.setProc, hq]

variable {L : Loc} {fd : Fin NOFILE} {o : Option (Fin NFILE)}

/-- A file that the process has in a variable goes to a free descriptor. -/
theorem holdsFile_fill (hf : f ∈ L.files) (hfd : L.slots fd = none)
    (g : Fin NFILE) : ({ L with slots := update L.slots fd (some f),
                                files := L.files.erase f } : Loc).holdsFile g =
      L.holdsFile g := by
  have hfill := fdRefs_fill f g hfd
  unfold Loc.holdsFile
  rw [hfill]
  by_cases hg : g = f
  · subst hg
    have hpos := List.count_pos_iff.mpr hf
    simp
    omega
  · have hne : ¬ f = g := fun h' => hg h'.symm
    rw [List.count_erase_of_ne hg]
    simp [hne]

theorem holdsFile_erase (hf : f ∈ L.files) (is : List (Fin NINODE)) (g : Fin NFILE) :
    (L.closes f is).holdsFile g+(if g = f then 1 else 0) = L.holdsFile g := by
  unfold Loc.closes Loc.holdsFile
  dsimp only
  by_cases hg : g = f
  · subst hg
    have hpos := List.count_pos_iff.mpr hf
    rw [List.count_erase_self, if_pos rfl]
    omega
  · rw [List.count_erase_of_ne hg, if_neg hg]
    omega

theorem holdsFile_takes (L : Loc) (fd : Fin NOFILE) (gone : Option (Fin NOFILE)) (g : Fin NFILE) :
    (L.takes fd gone).holdsFile g = L.holdsFile g := by
  unfold Loc.takes Loc.holdsFile
  rw [List.count_append]
  cases hfd : L.slots fd with
  | none =>
    have hsame : update L.slots fd none = L.slots := by
      rw [← hfd]
      exact update_eq_self fd L.slots
    rw [hsame]
    simp
  | some f =>
    have hclear := fdRefs_clear g hfd
    simp only [Option.toList_some]
    omega

section Files
variable (h : Inv md s Ls)
include h

/-- A process that knows that its file is fresh is the only one to have it. -/
theorem fresh_only (hf : Fact.fresh f ∈ (Ls q).know) (hq : q ≠ p) : (Ls p).holdsFile f = 0 := by
  obtain ⟨href, -, hpos⟩ := (h.files.proc q).fresh f hf
  have hle := two_le_fileRefs Ls f hq
  have hcounted := h.files.counted f
  omega

theorem opened_holds {w : Bool} (hf : Fact.opened f i w ∈ (Ls q).know) :
    0 < (Ls q).holdsFile f := by
  obtain ⟨⟨fd, hfd⟩, -⟩ := (h.files.proc q).opened f i w hf
  exact Loc.holdsFile_pos hfd

theorem holdsFile_le (p : Fin NPROC) (f : Fin NFILE) : (Ls p).holdsFile f ≤ (s.file f).ref := by
  rw [h.files.counted]
  exact le_fileRefs f p

theorem setFd_slots (hfile : s'.proc = s.proc) (hg : (Ls p).gone = none) (fd' : Fin NOFILE) :
    ((setFd p s' fd o).proc p).ofile fd' = update (Ls p).slots fd o fd' := by
  rw [setFd_ofile, update_apply, hfile]
  split_ifs
  · rfl
  · apply (h.files.proc p).slots
    simp [hg]

theorem opened_filled {g : Fin NFILE} {w : Bool}
    (hfd : (Ls p).slots fd = none) (hg : Fact.opened g i w ∈ (Ls p).know) :
    ∃ fd', update (Ls p).slots fd o fd' = some g := by
  obtain ⟨⟨fd', hfd'⟩, -⟩ := (h.files.proc p).opened g i w hg
  have hne : fd' ≠ fd := by
    rintro rfl
    rw [hfd] at hfd'
    cases hfd'
  exact ⟨fd', by rwa [update_of_ne hne]⟩

theorem file_seek (f : Fin NFILE) (off : ℕ) :
    FileInv md (s.setFile f { s.file f with off := off }) (update Ls p (Ls p)) := by
  have hold := h.files.proc p
  refine file_change _ h.files rfl rfl rfl (fun _ _ => rfl) (fun _ => rfl) (h.files.free f)
    (fun hf => .inl ⟨hf, rfl, rfl⟩) (fun _ _ _ => ⟨rfl, rfl⟩)
    (fun q _ i w hf => ⟨((h.files.proc q).opened f i w hf).2.1, rfl, rfl⟩) hold.slots hold.gone
    (fun g hg => ?_) fun g i w hg => ⟨(hold.opened g i w hg).1, ?_⟩
  · split_ifs with hgf
    · exact hold.fresh f (hgf ▸ hg)
    · exact hg
  · split_ifs with hgf
    · exact (hold.opened f i w (hgf ▸ hg)).2
    · exact hg

theorem file_filealloc (hr : (s.file f).ref = 0) :
    FileInv md (s.setFile f { s.file f with ref := 1 })
      (update Ls p { (Ls p).learn (.fresh f) with files := f :: (Ls p).files }) := by
  have hold := h.files.proc p
  -- nobody has the file yet
  have hunheld (q : Fin NPROC) : (Ls q).holdsFile f = 0 := by
    have hle := holdsFile_le h q f
    omega
  have hunopened (q : Fin NPROC) (i : Fin NINODE) (w : Bool) : Fact.opened f i w ∉ (Ls q).know := by
    intro hf
    have hpos := opened_holds h hf
    have hzero := hunheld q
    omega
  have hholds (g : Fin NFILE) : ({ (Ls p).learn (.fresh f) with
      files := f :: (Ls p).files } : Loc).holdsFile g =
      (Ls p).holdsFile g+if g = f then 1 else 0 := by
    unfold Loc.holdsFile Loc.learn
    rw [List.count_cons]
    simp only [beq_iff_eq, eq_comm (a := f)]
    omega
  refine file_change _ h.files rfl rfl rfl (fun _ _ => rfl) (fun g => ?_) (fun h' => by cases h')
    (fun hf => .inl ⟨hf, rfl, rfl⟩) (fun q _ hf => ?_) (fun q _ i w hf => absurd hf (hunopened q i w))
    hold.slots hold.gone (fun g hg => ?_) fun g i w hg => ?_
  · rw [hholds]
    dsimp only
    split_ifs <;> omega
  · have hpos := ((h.files.proc q).fresh f hf).2.2
    have hzero := hunheld q
    omega
  · rcases Set.mem_insert_iff.mp hg with heq | hg
    · rw [if_pos (Fact.fresh.inj heq), hholds, if_pos rfl]
      exact ⟨rfl, h.files.free f hr, Nat.succ_pos _⟩
    · split_ifs with hgf
      · rw [hholds, if_pos rfl]
        exact ⟨rfl, h.files.free f hr, Nat.succ_pos _⟩
      · exact hg
  · rcases Set.mem_insert_iff.mp hg with heq | hg
    · cases heq
    · refine ⟨(hold.opened g i w hg).1, ?_⟩
      rw [if_neg fun hgf : g = f => hunopened p i w (hgf ▸ hg)]
      exact hg

theorem file_fdalloc (hf : f ∈ (Ls p).files) (hfd : (Ls p).slots fd = none)
    (hg : (Ls p).gone = none) :
    FileInv md (setFd p s fd (some f))
      (update Ls p { Ls p with slots := update (Ls p).slots fd (some f),
                                        files := (Ls p).files.erase f }) := by
  refine file_slots h.files rfl rfl rfl (fun q => setFd_other s fd _)
    (holdsFile_fill hf hfd) (fun fd' _ => setFd_slots h rfl hg fd') (fun fd' hgone => ?_) (fun _ hg' => hg')
    fun g i w hg' => ⟨opened_filled h hfd hg', hg'⟩
  rw [hg] at hgone
  cases hgone

theorem file_openFile {fl : OpenFile} (hf : Fact.fresh f ∈ (Ls p).know)
    (hfd : ∃ fd, (Ls p).slots fd = some f) (ht : Fact.type i (s.inode i).d.type ∈ (Ls p).know)
    (href : fl.ref = (s.file f).ref) (hfl : IsInode fl) (hip : fl.ip = i)
    (hw : md.careful → fl.writable = true → (s.inode i).d.type ≠ T_DIR) :
    FileInv md (s.setFile f fl) (update Ls p ((Ls p).opens f i fl.writable)) := by
  have hold := h.files.proc p
  obtain ⟨href', htype, hpos⟩ := hold.fresh f hf
  obtain ⟨-, hv, -, hb⟩ := (h.table.proc p).typed i _ ht
  have hnone : ¬ IsInode (s.file f) := by
    unfold IsInode
    rw [htype]
    simp
  have hunopened (q : Fin NPROC) (j : Fin NINODE) (w : Bool) : Fact.opened f j w ∉ (Ls q).know :=
    fun hg => hnone ((h.files.proc q).opened f j w hg).2.1
  refine file_change _ h.files rfl rfl rfl (fun _ _ => rfl) (fun g => ?_) (fun h' => by omega)
    (fun _ => .inr (by rw [hip]; exact ⟨hv, hb, hw⟩)) (fun q hq hg => ?_)
    (fun q _ j w hg => absurd hg (hunopened q j w)) hold.slots hold.gone (fun g hg => ?_)
    fun g j w hg => ?_
  · rw [href]
    rfl
  · have hzero := fresh_only h hg hq
    omega
  · rcases Set.mem_insert_iff.mp hg with heq | ⟨hg, hne, -⟩
    · cases heq
    · rwa [if_neg fun hgf => hne (by rw [hgf])]
  · rcases Set.mem_insert_iff.mp hg with heq | ⟨hg, -⟩
    · injection heq with hgf hj hw'
      rw [if_pos hgf, hgf, hj, hw']
      exact ⟨hfd, hfl, hip, rfl⟩
    · rw [if_neg fun hgf : g = f => hunopened p j w (hgf ▸ hg)]
      exact ⟨(hold.opened g j w hg).1, hg⟩

theorem file_dropFile (hf : f ∈ (Ls p).files) (hr : 1 < (s.file f).ref) :
    FileInv md (s.setFile f { s.file f with ref := (s.file f).ref-1 })
      (update Ls p ((Ls p).closes f [])) := by
  have hold := h.files.proc p
  refine file_change _ h.files rfl rfl rfl (fun _ _ => rfl) (fun g => ?_) (fun h' => ?_)
    (fun hf => .inl ⟨hf, rfl, rfl⟩) (fun q _ hg => ?_)
    (fun q _ j w hg => ⟨((h.files.proc q).opened f j w hg).2.1, rfl, rfl⟩) hold.slots hold.gone
    (fun g hg => ?_) fun g j w hg => absurd rfl (hg.1.2 g j w)
  · have hholds := holdsFile_erase hf [] g
    dsimp only
    split_ifs at hholds ⊢ <;> omega
  · dsimp only at h'
    omega
  · have href := ((h.files.proc q).fresh f hg).1
    omega
  · rw [if_neg fun hgf => hg.2 (by rw [hgf])]
    exact hg.1.1

theorem file_dropLast (hf : f ∈ (Ls p).files) (hr : (s.file f).ref = 1) (is : List (Fin NINODE)) :
    FileInv md (s.closeFile f) (update Ls p ((Ls p).closes f is)) := by
  have hold := h.files.proc p
  -- nobody else has the file
  have hother {q : Fin NPROC} (hq : q ≠ p) : (Ls q).holdsFile f = 0 := by
    have hpos := Loc.holdsFile_pos_files hf
    have hle := two_le_fileRefs Ls f hq
    have hcounted := h.files.counted f
    omega
  refine file_change _ h.files rfl rfl rfl (fun _ _ => rfl) (fun g => ?_) (fun _ => rfl)
    (fun hfl => ?_) (fun q hq hg => ?_) (fun q hq j w hg => ?_) hold.slots hold.gone
    (fun g hg => ?_) fun g j w hg => absurd rfl (hg.1.2 g j w)
  · have hholds := holdsFile_erase hf is g
    rw [hr]
    split_ifs at hholds ⊢ <;> omega
  · rcases hfl with hfl | hfl <;> cases hfl
  · have hpos := ((h.files.proc q).fresh f hg).2.2
    have hzero := hother hq
    omega
  · have hpos := opened_holds h hg
    have hzero := hother hq
    omega
  · rw [if_neg fun hgf => hg.2 (by rw [hgf])]
    exact hg.1.1

/-- The descriptor that `sys_close` or `kexit` looks at is no longer counted. -/
theorem file_takes {gone : Option (Fin NOFILE)} (hfile : s'.file = s.file)
    (hinode : s'.inode = s.inode) (hproc : ∀ q, q ≠ p → (s'.proc q).ofile = (s.proc q).ofile)
    (hgone : gone = none ∨ gone = some fd)
    (hslots : ∀ fd', gone ≠ some fd' → (s'.proc p).ofile fd' = update (Ls p).slots fd none fd') :
    FileInv md s' (update Ls p ((Ls p).takes fd gone)) := by
  refine file_slots h.files hfile hinode rfl hproc (holdsFile_takes (Ls p) fd gone) hslots
    (fun fd' hfd' => ?_) (fun _ hg' => hg'.1) fun g i w hg' => absurd rfl (hg'.2 g i w)
  rcases hgone with hnone | hsome
  · rw [hnone] at hfd'
    cases hfd'
  · rw [hsome] at hfd'
    injection hfd' with hfd'
    subst hfd'
    exact update_self _ _ _

theorem file_takeFd (fd : Fin NOFILE) (hg : (Ls p).gone = none) :
    FileInv md (setFd p s fd none) (update Ls p ((Ls p).takes fd (Ls p).gone)) := by
  apply file_takes h
  · rfl
  · rfl
  · exact fun q => setFd_other s fd _
  · exact .inl hg
  · exact fun fd' _ => setFd_slots h rfl hg fd'

theorem file_exitFd (fd : Fin NOFILE) (hg : (Ls p).gone = none) : FileInv md s (update Ls p
      ((Ls p).takes fd (if ((Ls p).slots fd).isSome then some fd else none))) := by
  have hofile (fd' : Fin NOFILE) : (s.proc p).ofile fd' = (Ls p).slots fd' := by
    apply (h.files.proc p).slots
    simp [hg]
  apply file_takes h rfl rfl (fun _ _ => rfl)
  · split_ifs
    · exact .inr rfl
    · exact .inl rfl
  · intro fd' hfd'
    rw [hofile, update_apply]
    split_ifs with heq
    · subst heq
      by_contra hne
      have hsome := Option.isSome_iff_ne_none.mpr hne
      rw [if_pos hsome] at hfd'
      exact hfd' rfl
    · rfl

theorem file_clearFd (hg : (Ls p).gone = some fd) :
    FileInv md (setFd p s fd none) (update Ls p { Ls p with gone := none }) := by
  have hold := h.files.proc p
  refine file_slots h.files rfl rfl rfl (fun q => setFd_other s fd _) (fun _ => rfl)
    (fun fd' _ => ?_) (by simp) (fun _ hg' => hg') fun g i w hg' => ⟨(hold.opened g i w hg').1, hg'⟩
  rw [setFd_ofile]
  split_ifs with heq
  · rw [heq]
    exact (hold.gone fd hg).symm
  · apply hold.slots
    rw [hg]
    exact fun h' => heq (Option.some.inj h').symm

theorem file_dupFd (hf : ∃ q fd, (Ls q).slots fd = some f ∧ Fact.fresh f ∉ (Ls q).know)
    (hfd : (Ls p).slots fd = none) (hg : (Ls p).gone = none) :
    FileInv md (setFd p (s.setFile f { s.file f with ref := (s.file f).ref+1 }) fd (some f))
      (update Ls p { Ls p with slots := update (Ls p).slots fd (some f) }) := by
  have hold := h.files.proc p
  have hholds (g : Fin NFILE) : ({ Ls p with
      slots := update (Ls p).slots fd (some f) } : Loc).holdsFile g =
      (Ls p).holdsFile g+if g = f then 1 else 0 := by
    have hfill := fdRefs_fill f g hfd
    unfold Loc.holdsFile
    rw [hfill, List.count_singleton]
    simp only [beq_iff_eq, eq_comm (a := f)]
    omega
  -- a file that stands in a descriptor is not fresh to anybody
  have hfresh (q : Fin NPROC) : Fact.fresh f ∉ (Ls q).know := by
    intro hq
    obtain ⟨r, fd', hfd', hr⟩ := hf
    have hrq : q ≠ r := by
      rintro rfl
      exact hr hq
    have hzero := fresh_only h hq hrq
    have hpos := Loc.holdsFile_pos hfd'
    omega
  refine file_change { s.file f with ref := (s.file f).ref+1 } h.files rfl rfl rfl
    (fun q => setFd_other _ fd _) (fun g => ?_) (fun h' => by cases h')
    (fun hi => .inl ⟨hi, rfl, rfl⟩) (fun q _ hq => absurd hq (hfresh q))
    (fun q _ j w hq => ⟨((h.files.proc q).opened f j w hq).2.1, rfl, rfl⟩) (fun fd' _ => setFd_slots h rfl hg fd')
    (fun fd' hgone => ?_) (fun g hg' => ?_) fun g j w hg' => ⟨opened_filled h hfd hg', ?_⟩
  · rw [hholds]
    dsimp only
    split_ifs <;> omega
  · rw [hg] at hgone
    cases hgone
  · rw [if_neg fun hgf : g = f => hfresh p (hgf ▸ hg')]
    exact hg'
  · split_ifs with hgf
    · subst hgf
      exact (hold.opened g j w hg').2
    · exact hg'

theorem file_know {K : Set Fact} (hfresh : ∀ f, Fact.fresh f ∈ K → Fact.fresh f ∈ (Ls p).know)
    (hopened : ∀ f i w, Fact.opened f i w ∈ K → Fact.opened f i w ∈ (Ls p).know ∨
      (∃ fd, (Ls p).slots fd = some f) ∧ IsInode (s.file f) ∧ (s.file f).ip = i ∧
        (s.file f).writable = w) :
    FileInv md s (update Ls p { Ls p with know := K }) :=
  FileKept.table h ⟨rfl, fun _ => rfl, rfl, rfl, rfl, hfresh, hopened, fun _ _ _ _ h' => h'⟩ (.of_eq rfl rfl)

theorem file_learn {φ : Fact} (hφ : Seen s (Ls p) φ) :
    FileInv md s (update Ls p ((Ls p).learn φ)) := by
  apply file_know h
  · intro f hf
    rcases Set.mem_insert_iff.mp hf with rfl | hf
    · exact hφ.elim
    · exact hf
  · intro f i w hf
    rcases Set.mem_insert_iff.mp hf with rfl | hf
    · exact .inr hφ
    · exact .inl hf

theorem file_setLock {o : Option (Fin NPROC)} {v : Bool} (hk : FileKept p s Ls (s.setLock i o v) L')
    (hv : (s.inode i).valid = true → ¬ Busy Ls i → v = true) :
    FileInv md (s.setLock i o v) (update Ls p L') := by
  apply hk.fileInv h
  intro j _ hvj hb
  rw [setLock_inode]
  refine ⟨?_, rfl⟩
  split_ifs with hj
  · rw [hj] at hvj hb
    exact hv hvj hb
  · exact hvj

theorem file_putLast (hi : i ∈ (Ls p).refs) (href : (s.inode i).ref = 1) :
    FileInv md (s.setInode i { s.inode i with lock := some p })
      (update Ls p ((Ls p).starts i)) := by
  refine file_setLock h (.of_know rfl (fun _ => rfl) rfl rfl rfl (fun _ hφ => hφ.1) ?_) fun hv _ => hv
  intro f hf st _ hst
  injection hst with hst
  exact absurd (congrArg Prod.fst hst).symm (file_ne_last h hi href hf)

theorem file_updated {d : Dnode} (hu : Updated s i d s') (hk : FileKept p s Ls s' L')
    (htype : ¬ Busy Ls i → d.type = (s.inode i).d.type) : FileInv md s' (update Ls p L') := by
  apply hk.fileInv h
  intro j _ hv hb
  rw [hu.inode]
  refine ⟨hv, ?_⟩
  split_ifs with hj
  · subst hj
    exact htype hb
  · rfl

theorem file_freeing {d : Dnode} {st st' : Stage} (hu : Updated s i d s')
    (hs : (Ls p).stage = some (i, st)) (hst : st ≠ .dropping) :
    FileInv md s' (update Ls p { Ls p with stage := some (i, st') }) := by
  have hbusy : Busy Ls i := ⟨p, st, hs, hst⟩
  refine file_updated h hu (.of_know hu.file (fun _ => by rw [hu.proc]) rfl rfl rfl (fun _ hφ => hφ) ?_)
    (absurd hbusy)
  intro f hf u _ hu'
  injection hu' with hu'
  injection hu' with hip _
  rw [hip] at hbusy
  exact absurd hbusy (h.files.owner f hf).2.1

theorem file_invalidate (hs : (Ls p).stage = some (i, .freed)) : FileInv md (s.invalidate i)
      (update Ls p ((Ls p).finishes i)) := by
  refine file_setLock h (.of_know rfl (fun _ => rfl) rfl rfl rfl (fun _ hφ => hφ) ?_)
    fun _ => absurd (.freed hs)
  intro f _ st hst hst'
  injection hst' with hst'
  exact absurd (congrArg Prod.snd hst').symm hst

theorem file_load (p : Fin NPROC) (hv : (s.inode i).valid = false) : FileInv md (s.fill i) Ls := by
  have hkept : FileKept p s Ls (s.fill i) (Ls p) :=
    .of_know rfl (fun _ => rfl) rfl rfl rfl (fun _ hφ => hφ) fun _ _ _ _ h' => h'
  rw [← update_eq_self p Ls]
  apply hkept.fileInv h
  intro j _ hvj _
  have hj : j ≠ i := by
    rintro rfl
    rw [hvj] at hv
    cases hv
  rw [State.fill, setInode_inode, if_neg hj]
  exact ⟨hvj, rfl⟩

end Files

theorem Loc.got_fresh {new : Bool} {n : ℕ} :
    Fact.fresh f ∈ (L.got new i n).know ↔ Fact.fresh f ∈ L.know := by
  cases new with
  | false => simp [Loc.got, Loc.learn, Loc.addRef]
  | true => simp [Loc.got, Loc.addNew, Loc.addRef]

section
variable (L : Loc) (new : Bool) (n : ℕ)

@[simp] theorem Loc.got_files : (L.got new i n).files = L.files := by
  cases new <;> rfl

@[simp] theorem Loc.got_slots : (L.got new i n).slots = L.slots := by
  cases new <;> rfl

@[simp] theorem Loc.got_gone : (L.got new i n).gone = L.gone := by
  cases new <;> rfl

end

theorem KeptTable.file_got {new : Bool} {n : ℕ} (ht : KeptTable s s') (h : Inv md s Ls)
    (hfile : s'.file = s.file) (hproc : s'.proc = s.proc) :
    FileInv md s' (update Ls p ((Ls p).got new i n)) := by
  refine FileKept.table h ⟨hfile, fun _ => by rw [hproc], Loc.got_files .., Loc.got_slots ..,
    Loc.got_gone .., fun _ => Loc.got_fresh.mp, fun _ _ _ hf => .inl (Loc.got_opened.mp hf), ?_⟩ ht
  intro f _ st _ hst
  rwa [Loc.got_stage] at hst

theorem setProc_ofile (s : State) (p : Fin NPROC) {pr : FsProc}
    (hpr : pr.ofile = (s.proc p).ofile) (q : Fin NPROC) :
    ((s.setProc p pr).proc q).ofile = (s.proc q).ofile := by
  by_cases hq : q = p
  · rw [hq]
    simp [State.setProc, hpr]
  · simp [State.setProc, hq]

theorem FileInv.effect {Ls' : Locs} (h : Inv md s Ls) (he : Effect md p s Ls s' Ls') :
    FileInv md s' Ls' := by
  cases he with
  | forget K hK =>
    exact file_know h (fun _ hf => hK.subset hf) fun _ _ _ hf => .inl (hK.subset hf)
  | learn φ _ hφ => exact file_learn h hφ
  | loaded i =>
    apply file_know h
    · intro f hf
      rcases hf with heq | hf
      · cases heq
      · exact hf.1
    · intro f j w hf
      rcases hf with heq | hf
      · cases heq
      · exact .inl hf.1
  | hold new i n ha hr hn => exact (kept_hold h new ha hr hn).toKeptTable.file_got h rfl rfl
  | recycle new i n ha hr => exact (kept_recycle h new ha hr).toKeptTable.file_got h rfl rfl
  | acquire i =>
    exact file_setLock h (.of_know rfl (fun _ => rfl) rfl rfl rfl (fun _ hφ => hφ)
      fun _ _ _ _ h' => h') fun hv _ => hv
  | load i _ _ hv =>
    rw [update_eq_self]
    exact file_load h p hv
  | unlock i =>
    exact file_setLock h (.of_know rfl (fun _ => rfl) rfl rfl rfl (fun _ hφ => hφ.1)
      fun _ _ _ _ h' => h') fun hv _ => hv
  | putMore i =>
    exact FileKept.table h (.of_know rfl (fun _ => rfl) rfl rfl rfl (fun _ hφ => hφ.1)
      fun _ _ _ _ h' => h') (.setRef (Nat.sub_le ..))
  | putLast i _ hr _ href => exact file_putLast h hr href
  | store i d data K _ _ _ htype hK =>
    exact file_updated h (updated_store s i d data) (.of_know rfl (fun _ => rfl) rfl rfl rfl
      hK.subset fun _ _ _ _ h' => h') fun _ => htype
  | trunc i _ hs => exact file_freeing h (updated_store s i _ _) hs Stage.noConfusion
  | free i _ hs => exact file_freeing h (updated_iupdate s i _) hs Stage.noConfusion
  | invalidate i _ hs => exact file_invalidate h hs
  | drop i =>
    exact FileKept.table h (.of_know rfl (fun _ => rfl) rfl rfl rfl (fun _ hφ => hφ.1)
      fun _ _ _ _ h' => by cases h') (.setRef (Nat.sub_le ..))
  | ialloc dp n t =>
    have hknow (φ : Fact) (hφ : φ ∈ ((Ls p).allocs n dp t).know)
        (h1 : φ ≠ .newborn n dp t) (h2 : φ ≠ .unborn n t) : φ ∈ (Ls p).know := by
      simpa [Loc.learn, h1, h2] using hφ
    exact FileKept.fileInv h ⟨rfl, fun _ => rfl, rfl, rfl, rfl,
      fun f hf => hknow _ hf Fact.noConfusion Fact.noConfusion,
      fun f i w hf => .inl (hknow _ hf Fact.noConfusion Fact.noConfusion),
      fun _ _ _ _ h' => h'⟩ fun j _ hv _ => ⟨hv, rfl⟩
  | seek f off => exact file_seek h f off
  | filealloc f _ hr => exact file_filealloc h hr
  | fdalloc fd f _ hf hfd hg => exact file_fdalloc h hf hfd hg
  | openFile f i fl _ hf hfd _ _ _ ht href hfl hip hw =>
    exact file_openFile h hf hfd ht href hfl hip hw
  | dropFile f _ hf _ hr => exact file_dropFile h hf hr
  | dropLast f _ hf _ hr => exact file_dropLast h hf hr _
  | takeFd fd _ hg => exact file_takeFd h fd hg
  | exitFd fd _ hg => exact file_exitFd h fd hg
  | clearFd fd _ hg => exact file_clearFd h hg
  | dupFd fd f hf hfd hg => exact file_dupFd h hf hfd hg
  | takeCwd i =>
    exact FileKept.table h (.of_know rfl (fun _ => rfl) rfl rfl rfl (fun _ hφ => hφ)
      fun _ _ _ _ h' => h') (.of_eq rfl rfl)
  | setCwd i =>
    exact FileKept.table h (.of_know rfl (setProc_ofile s p rfl) rfl rfl rfl (fun _ hφ => hφ.1)
      fun _ _ _ _ h' => h') (.of_eq rfl rfl)
  | exit =>
    exact FileKept.table h (.of_know rfl (setProc_ofile s p rfl) rfl rfl rfl (fun _ hφ => hφ.elim)
      fun _ _ _ _ h' => h') (.of_eq rfl rfl)
  | born i ha hi =>
    obtain ⟨q, hq⟩ := hi
    exact FileKept.table h (.of_know rfl (setProc_ofile (idup s i) p rfl) rfl rfl rfl (fun _ hφ => hφ)
      fun _ _ _ _ h' => h') (kept_born h ha (cwd_pos h hq)).toKeptTable

end Xv6.Inodes
