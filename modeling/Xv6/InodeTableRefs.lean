import Xv6.InodeTableFrame

/-! Effects that change no lock and no field of an entry but its reference count. -/
namespace Xv6.Inodes

open Interleaving Function

variable {md : Mode} {p q : Fin NPROC} {s s' : State} {Ls : Locs} {L' : Loc} {i j : Fin NINODE}

/-! ## Effects on files -/

/-- Neither entries nor references change. -/
structure TableSame (p : Fin NPROC) (s : State) (Ls : Locs) (s' : State) (L' : Loc) : Prop where
  inode : s'.inode = s.inode
  dinode : s'.dinode = s.dinode
  holds : ∀ f i, fileHolds (s'.file f) i = fileHolds (s.file f) i
  proc : ∀ q, (s'.proc q).cwd = (s.proc q).cwd
  refs : L'.refs = (Ls p).refs
  locks : L'.locks = (Ls p).locks
  cwd : L'.cwd = (Ls p).cwd
  stage : L'.stage = (Ls p).stage
  alive : L'.alive = (Ls p).alive
  backed : ∀ i ∈ (Ls p).locks, L'.Backs i
  typed : ∀ i t, Fact.type i t ∈ L'.know → Fact.type i t ∈ (Ls p).know
  num : ∀ i n, Fact.num i n ∈ L'.know → Fact.num i n ∈ (Ls p).know ∨
    i ∈ (Ls p).refs ∧ (s.inode i).inum = n
  dead : (Ls p).alive = false → L'.files = (Ls p).files ∧ L'.gone = (Ls p).gone ∧ L'.know = ∅

theorem TableSame.kept (hs : TableSame p s Ls s' L') (h : TableInv s Ls) : Kept p s Ls s' L' where
  toKeptTable := .of_eq hs.inode hs.dinode
  others q _ := hs.proc q
  stage := .of_eq hs.stage
  staged i st hst := by
    rw [hs.stage] at hst
    rw [hs.refs]
    exact ⟨hst, ((h.proc p).stage i st hst).1⟩
  locks := hs.locks
  backed := hs.backed
  typed i t ht := by
    have ht' := hs.typed i t ht
    rw [hs.refs]
    exact ⟨ht', ((h.proc p).typed i t ht').1⟩
  num i n hn := by
    rw [hs.refs, hs.inode]
    rcases hs.num i n hn with hold | ⟨hr, hi⟩
    · exact ⟨((h.proc p).num i n hold).1, .inl hold⟩
    · exact ⟨hr, .inr hi⟩
  cwd i hi := by
    rw [hs.cwd] at hi
    rw [hs.proc]
    exact (h.proc p).cwd i hi
  alive := by
    rw [hs.alive, hs.proc]
    exact (h.proc p).alive
  dead ha := by
    rw [hs.alive] at ha
    obtain ⟨hr, hl, hf, hg, hst, -⟩ := (h.proc p).dead ha
    obtain ⟨hf', hg', hk⟩ := hs.dead ha
    rw [hs.refs, hs.locks, hs.stage, hf', hg']
    exact ⟨hr, hl, hf, hg, hst, hk⟩

theorem TableSame.tableInv (hs : TableSame p s Ls s' L') (h : Inv md s Ls) :
    TableInv s' (update Ls p L') := by
  have hk := hs.kept h.table
  apply hk.tableInv h
  · intro j
    have hholds : L'.holds j = (Ls p).holds j := by
      unfold Loc.holds
      rw [hs.refs, hs.cwd]
    have htotal := total_loc (·.holds j) s Ls j p L'
    have hfiles : total (·.holds j) s' (update Ls p L') j =
        total (·.holds j) s (update Ls p L') j := by
      unfold total
      simp only [hs.holds]
    have hold := h.table.counted j
    unfold outstanding at hold ⊢
    rw [hs.inode]
    omega
  · apply hk.unique h.table
    intro j hj
    rw [hs.inode] at hj
    exact hj

variable {K : Set Fact} {f : Fin NFILE} {L : Loc} {n : ℕ} {new : Bool}
  {stage : Option (Fin NINODE × Stage)}

/-- Knowledge of the files in descriptors is given up, by a process whose locks do not need it. -/
theorem backs_ownLocks (ho : (Ls p).OwnLocks) (hr : (Ls p).refs ⊆ L'.refs)
    (i : Fin NINODE) (hi : i ∈ (Ls p).locks) : L'.Backs i :=
  .inl (hr (ho i hi))

theorem backs_of_subset (h : TableInv s Ls) (hr : (Ls p).refs ⊆ L'.refs)
    (hk : ∀ f i w, Fact.opened f i w ∈ (Ls p).know → Fact.opened f i w ∈ L'.know)
    (i : Fin NINODE) (hi : i ∈ (Ls p).locks) : L'.Backs i := by
  rcases (h.proc p).backed i hi with hmem | ⟨f, w, hf⟩
  · exact .inl (hr hmem)
  · exact .inr ⟨f, w, hk f i w hf⟩

theorem TableSame.own {slots : Fin NOFILE → Option (Fin NFILE)} {gone : Option (Fin NOFILE)}
    {files : List (Fin NFILE)}
    (hbacked : ∀ i ∈ (Ls p).locks,
      ({ Ls p with slots := slots, gone := gone, files := files, know := K } : Loc).Backs i)
    (htyped : ∀ i t, Fact.type i t ∈ K → Fact.type i t ∈ (Ls p).know)
    (hnum : ∀ i n, Fact.num i n ∈ K → Fact.num i n ∈ (Ls p).know ∨
      i ∈ (Ls p).refs ∧ (s.inode i).inum = n)
    (hdead : (Ls p).alive = false → files = (Ls p).files ∧ gone = (Ls p).gone ∧ K = ∅) :
    TableSame p s Ls s { Ls p with slots := slots, gone := gone, files := files, know := K } where
  inode := rfl
  dinode := rfl
  holds _ _ := rfl
  proc _ := rfl
  refs := rfl
  locks := rfl
  cwd := rfl
  stage := rfl
  alive := rfl
  backed := hbacked
  typed := htyped
  num := hnum
  dead := hdead

theorem tableSame_setFd {fd : Fin NOFILE} {o : Option (Fin NFILE)} {r : Fin NPROC}
    (hL : TableSame p s Ls s' L') : TableSame p s Ls (setFd r s' fd o) L' := by
  refine { hL with inode := hL.inode, dinode := hL.dinode, holds := hL.holds, proc := ?_ }
  intro q
  rw [← hL.proc q]
  by_cases hq : q = r
  · subst hq
    simp [setFd, State.setProc]
  · simp [setFd, State.setProc, hq]

theorem tableSame_setFile {fl : OpenFile}
    (hfl : ∀ i, fileHolds fl i = fileHolds (s.file f) i) (hL : TableSame p s Ls s L') :
    TableSame p s Ls (s.setFile f fl) L' := by
  refine { hL with inode := rfl, dinode := rfl, proc := fun _ => rfl, holds := ?_ }
  intro g i
  by_cases hg : g = f
  · subst hg
    simp only [State.setFile, update_self]
    exact hfl i
  · simp only [State.setFile, update_of_ne hg]

theorem not_dead {P : Prop} (ha : L.alive = true) (hd : L.alive = false) : P := by
  rw [ha] at hd
  cases hd

theorem tableSame_takeFd (fd : Fin NOFILE) (gone : Option (Fin NOFILE))
    (ha : (Ls p).alive = true) (ho : (Ls p).OwnLocks) :
    TableSame p s Ls s ((Ls p).takes fd gone) :=
  .own (backs_ownLocks ho fun _ hi => hi) (fun _ _ ht => ht.1) (fun _ _ hn => .inl hn.1)
    (not_dead ha)

section Files
variable (h : Inv md s Ls)
include h

theorem table_forget (hK : (Ls p).Forgets K) :
    TableInv s (update Ls p { Ls p with know := K }) := by
  apply TableSame.tableInv _ h
  refine .own (backs_of_subset h.table (List.Subset.refl _) fun _ _ _ hf => hK.opened.mpr hf)
    (fun _ _ ht => hK.subset ht) (fun _ _ hn => .inl (hK.subset hn)) fun ha => ⟨rfl, rfl, ?_⟩
  have hempty := ((h.table.proc p).dead ha).2.2.2.2.2
  apply Set.subset_empty_iff.mp
  rw [← hempty]
  exact hK.subset

theorem table_learn {φ : Fact} (ha : (Ls p).alive = true) (hφ : Seen s (Ls p) φ) :
    TableInv s (update Ls p ((Ls p).learn φ)) := by
  apply TableSame.tableInv _ h
  refine .own (backs_of_subset h.table (List.Subset.refl _) fun _ _ _ => Set.mem_insert_of_mem _) ?_ ?_
    (not_dead ha)
  · intro i t ht
    rcases Set.mem_insert_iff.mp ht with rfl | ht
    · exact hφ.elim
    · exact ht
  · intro i n hn
    rcases Set.mem_insert_iff.mp hn with rfl | hn
    · exact .inr hφ
    · exact .inl hn

theorem table_seek (f : Fin NFILE) (off : ℕ) :
    TableInv (s.setFile f { s.file f with off := off }) (update Ls p (Ls p)) := by
  have hsame : TableSame p s Ls s (Ls p) :=
    .own (h.table.proc p).backed (fun _ _ ht => ht) (fun _ _ => .inl)
      fun ha => ⟨rfl, rfl, ((h.table.proc p).dead ha).2.2.2.2.2⟩
  apply TableSame.tableInv _ h
  exact tableSame_setFile (fun _ => rfl) hsame

theorem table_filealloc (f : Fin NFILE) (ha : (Ls p).alive = true) :
    TableInv (s.setFile f { s.file f with ref := 1 })
      (update Ls p { (Ls p).learn (.fresh f) with files := f :: (Ls p).files }) := by
  have hsame : TableSame p s Ls s { (Ls p).learn (.fresh f) with files := f :: (Ls p).files } := by
    apply TableSame.own
    · exact backs_of_subset h.table (fun _ hi => hi) fun _ _ _ => Set.mem_insert_of_mem _
    · intro i t ht
      rcases Set.mem_insert_iff.mp ht with heq | ht
      · cases heq
      · exact ht
    · intro i n hn
      rcases Set.mem_insert_iff.mp hn with heq | hn
      · cases heq
      · exact .inl hn
    · exact not_dead ha
  apply TableSame.tableInv _ h
  exact tableSame_setFile (fun _ => rfl) hsame

theorem table_fdalloc (fd : Fin NOFILE) (f : Fin NFILE) (ha : (Ls p).alive = true) :
    TableInv (setFd p s fd (some f))
      (update Ls p { Ls p with slots := update (Ls p).slots fd (some f),
                                        files := (Ls p).files.erase f }) := by
  have hsame : TableSame p s Ls s
      { Ls p with slots := update (Ls p).slots fd (some f),
                  files := (Ls p).files.erase f } :=
    .own (h.table.proc p).backed (fun _ _ ht => ht) (fun _ _ => .inl) (not_dead ha)
  exact (tableSame_setFd hsame).tableInv h

theorem table_dropFile (f : Fin NFILE) (ha : (Ls p).alive = true) (ho : (Ls p).OwnLocks) :
    TableInv (s.setFile f { s.file f with ref := (s.file f).ref-1 })
      (update Ls p ((Ls p).closes f [])) := by
  have hsame : TableSame p s Ls s ((Ls p).closes f []) :=
    .own (backs_ownLocks ho fun _ hi => hi) (fun _ _ ht => ht.1.1) (fun _ _ hn => .inl hn.1.1)
      (not_dead ha)
  apply TableSame.tableInv _ h
  exact tableSame_setFile (fun _ => rfl) hsame

theorem table_clearFd (fd : Fin NOFILE) (ha : (Ls p).alive = true) :
    TableInv (setFd p s fd none) (update Ls p { Ls p with gone := none }) := by
  have hsame : TableSame p s Ls s { Ls p with gone := none } :=
    .own (h.table.proc p).backed (fun _ _ ht => ht) (fun _ _ => .inl) (not_dead ha)
  exact (tableSame_setFd hsame).tableInv h

theorem table_dupFd (fd : Fin NOFILE) (f : Fin NFILE) :
    TableInv (setFd p (s.setFile f { s.file f with ref := (s.file f).ref+1 }) fd (some f))
      (update Ls p { Ls p with slots := update (Ls p).slots fd (some f) }) := by
  have hsame : TableSame p s Ls s { Ls p with slots := update (Ls p).slots fd (some f) } :=
    .own (h.table.proc p).backed (fun _ _ ht => ht) (fun _ _ => .inl)
      fun ha => ⟨rfl, rfl, ((h.table.proc p).dead ha).2.2.2.2.2⟩
  apply TableSame.tableInv _ h
  exact tableSame_setFd (tableSame_setFile (fun _ => rfl) hsame)

end Files

/-! ## Effects on references -/

section References
variable (h : Inv md s Ls)
include h

/-- A process's alive flag and current directory are those of the process table, if neither
changes. -/
theorem Kept.of_refs (ha : (Ls p).alive = true) (hL : L'.alive = true)
    (htable : KeptTable s s') (hproc : s'.proc = s.proc) (hstage : L'.stage = (Ls p).stage)
    (hcwd : L'.cwd = (Ls p).cwd ∨ L'.cwd = none) (hlocks : L'.locks = (Ls p).locks)
    (hrefs : (Ls p).refs ⊆ L'.refs)
    (hbacked : ∀ i ∈ (Ls p).locks, L'.Backs i)
    (htyped : ∀ i t, Fact.type i t ∈ L'.know → Fact.type i t ∈ (Ls p).know)
    (hnum : ∀ i n, Fact.num i n ∈ L'.know → Fact.num i n ∈ (Ls p).know ∨
      i ∈ L'.refs ∧ (s'.inode i).inum = n) : Kept p s Ls s' L' where
  toKeptTable := htable
  others q _ := by rw [hproc]
  stage := .of_eq hstage
  staged i st hst := by
    rw [hstage] at hst
    exact ⟨hst, hrefs ((h.table.proc p).stage i st hst).1⟩
  locks := hlocks
  backed := hbacked
  typed i t ht := by
    have ht' := htyped i t ht
    exact ⟨ht', ((h.table.proc p).typed i t ht').1.imp_left fun hr => hrefs hr⟩
  num i n hn := by
    rcases hnum i n hn with hold | ⟨hr, hi⟩
    · exact ⟨hrefs ((h.table.proc p).num i n hold).1, .inl hold⟩
    · exact ⟨hr, .inr hi⟩
  cwd i hi := by
    rw [hproc]
    rcases hcwd with hc | hc
    · rw [hc] at hi
      exact (h.table.proc p).cwd i hi
    · rw [hc] at hi
      cases hi
  alive := by
    rw [hL, hproc, ← (h.table.proc p).alive, ha]
  dead hd := not_dead hL hd

end References

/-- The type of an inode is not learnt by getting a reference to it. -/
theorem Loc.got_type {t : ℕ} : Fact.type j t ∈ (L.got new i n).know ↔ Fact.type j t ∈ L.know := by
  cases new with
  | false => simp [Loc.got, Loc.learn, Loc.addRef]
  | true => simp [Loc.got, Loc.addNew, Loc.addRef]

theorem Loc.got_num {m : ℕ} :
    Fact.num j m ∈ (L.got new i n).know ↔ Fact.num j m ∈ L.know ∨ j = i ∧ m = n := by
  cases new with
  | false => simp [Loc.got, Loc.learn, Loc.addRef, or_comm]
  | true => simp [Loc.got, Loc.addNew, Loc.addRef, or_comm]

theorem Loc.got_opened {w : Bool} :
    Fact.opened f j w ∈ (L.got new i n).know ↔ Fact.opened f j w ∈ L.know := by
  cases new with
  | false => simp [Loc.got, Loc.learn, Loc.addRef]
  | true => simp [Loc.got, Loc.addNew, Loc.addRef]

section
variable (L : Loc) (new : Bool) (n : ℕ)

@[simp] theorem Loc.got_refs : (L.got new i n).refs = i :: L.refs := by
  cases new <;> rfl

@[simp] theorem Loc.got_locks : (L.got new i n).locks = L.locks := by
  cases new <;> rfl

@[simp] theorem Loc.got_cwd : (L.got new i n).cwd = L.cwd := by
  cases new <;> rfl

@[simp] theorem Loc.got_stage : (L.got new i n).stage = L.stage := by
  cases new <;> rfl

@[simp] theorem Loc.got_alive : (L.got new i n).alive = L.alive := by
  cases new <;> rfl

end

section References
variable (h : Inv md s Ls)
include h

section
variable (new : Bool) {n : ℕ} (ha : (Ls p).alive = true)
include ha

theorem Kept.got (htable : KeptTable s s') (hproc : s'.proc = s.proc)
    (hn : (s'.inode i).inum = n) : Kept p s Ls s' ((Ls p).got new i n) := by
  have hrefs : (Ls p).refs ⊆ ((Ls p).got new i n).refs := by
    rw [Loc.got_refs]
    exact List.subset_cons_self _ _
  refine .of_refs h ha ?_ htable hproc (Loc.got_stage ..) (.inl (Loc.got_cwd ..)) (Loc.got_locks ..)
    hrefs (backs_of_subset h.table hrefs fun _ _ _ => Loc.got_opened.mpr)
    (fun _ _ => Loc.got_type.mp) ?_
  · rw [Loc.got_alive, ha]
  · intro j m hm
    rcases Loc.got_num.mp hm with hold | ⟨rfl, rfl⟩
    · exact .inl hold
    · rw [Loc.got_refs]
      exact .inr ⟨List.mem_cons_self, hn⟩

theorem kept_hold (hr : 0 < (s.inode i).ref) (hn : (s.inode i).inum = n) :
    Kept p s Ls (idup s i) ((Ls p).got new i n) :=
  .got h new ha (.recount _ (idup_inode s i) (fun _ => idup_pos s hr) rfl) rfl
    (by rwa [idup_inode])

theorem table_hold (hr : 0 < (s.inode i).ref) (hn : (s.inode i).inum = n) :
    TableInv (idup s i) (update Ls p ((Ls p).got new i n)) := by
  refine (kept_hold h new ha hr hn).recounted h rfl (fun j => ?_) fun _ => idup_pos s hr
  rw [idup_inode, Loc.holds_got]
  dsimp only
  omega

theorem kept_recycle (hr : (s.inode i).ref = 0) : Kept p s Ls (s.recycle i n)
      ((Ls p).got new i n) := by
  refine .got h new ha ⟨fun j => ?_, fun j hj => ?_, fun j h0 hpos => ?_, fun _ _ => rfl⟩ rfl ?_
  · rw [setInode_inode]
    split_ifs with hj
    · rw [hj]
    · rfl
  · have hne : j ≠ i := by
      rintro rfl
      omega
    rw [setInode_inode, if_neg hne]
    exact ⟨rfl, rfl, rfl⟩
  · rw [setInode_inode] at hpos ⊢
    split_ifs at hpos ⊢ with hj
    · rfl
    · omega
  · rw [setInode_inode, if_pos rfl]

theorem table_recycle
    (hr : (s.inode i).ref = 0) (hn : ∀ j, 0 < (s.inode j).ref → (s.inode j).inum ≠ n) :
    TableInv (s.recycle i n) (update Ls p ((Ls p).got new i n)) := by
  have hk := kept_recycle h new (n := n) ha hr
  apply hk.tableInv h
  · refine h.table.counted_of ?_ ?_
    · rfl
    intro j
    rw [setInode_inode, Loc.holds_got]
    split_ifs with hj
    · rw [hj]
      dsimp only
      omega
    · omega
  · intro j k hj hk' hjk
    rw [setInode_inode] at hj hk' hjk
    rw [setInode_inode] at hjk
    split_ifs at hj hk' hjk with hji hki hki
    · rw [hji, hki]
    · exact absurd hjk.symm (hn k hk')
    · exact absurd hjk (hn j hj)
    · exact h.table.unique j k hj hk' hjk

end

theorem kept_dropRef {r : ℕ} (ha : (Ls p).alive = true)
    (hstage : SameStage (Ls p) { (Ls p).dropRef i with stage := stage })
    (hstaged : ∀ j st, stage = some (j, st) → (Ls p).stage = some (j, st) ∧ j ∈ (Ls p).refs.erase i)
    (hl : i ∈ (Ls p).locks → i ∈ (Ls p).refs.erase i) (hr : r ≤ (s.inode i).ref) :
    Kept p s Ls (s.setInode i { s.inode i with ref := r })
      { (Ls p).dropRef i with stage := stage } where
  toKeptTable := .setRef hr
  others _ _ := rfl
  stage := hstage
  staged := hstaged
  locks := rfl
  backed j hj := by
    rcases (h.table.proc p).backed j hj with hmem | ⟨f, w, hf⟩
    · by_cases hji : j = i
      · rw [hji] at hj ⊢
        exact .inl (hl hj)
      · exact .inl ((List.mem_erase_of_ne hji).mpr hmem)
    · exact .inr ⟨f, w, hf, .inr ⟨fun _ => Fact.noConfusion, fun _ => Fact.noConfusion,
        fun _ => Fact.noConfusion⟩⟩
  typed j t ht := by
    refine ⟨ht.1, ?_⟩
    rcases ((h.table.proc p).typed j t ht.1).1 with hmem | hlock
    · by_cases hji : j = i
      · subst hji
        rcases ht.2 with hkeep | ⟨hne, -⟩
        · exact .inl hkeep
        · exact absurd rfl (hne t)
      · exact .inl ((List.mem_erase_of_ne hji).mpr hmem)
    · exact .inr hlock
  num j n hn := by
    have hmem := ((h.table.proc p).num j n hn.1).1
    refine ⟨?_, .inl hn.1⟩
    by_cases hji : j = i
    · subst hji
      rcases hn.2 with hkeep | ⟨-, hne, -⟩
      · exact hkeep
      · exact absurd rfl (hne n)
    · exact (List.mem_erase_of_ne hji).mpr hmem
  cwd := (h.table.proc p).cwd
  alive := (h.table.proc p).alive
  dead hd := not_dead ha hd

theorem table_dropRef (ha : (Ls p).alive = true)
    (hi : i ∈ (Ls p).refs) (hstage : SameStage (Ls p) { (Ls p).dropRef i with stage := stage })
    (hstaged : ∀ j st, stage = some (j, st) → (Ls p).stage = some (j, st) ∧ j ∈ (Ls p).refs.erase i)
    (hl : i ∈ (Ls p).locks → i ∈ (Ls p).refs.erase i) :
    TableInv (s.unref i) (update Ls p { (Ls p).dropRef i with stage := stage }) := by
  have hpos := h.table.ref_pos hi
  have hle := Nat.sub_le (s.inode i).ref 1
  refine (kept_dropRef h ha hstage hstaged hl hle).recounted h rfl (fun j => ?_)
    fun _ => setRef_pos s hle
  have hholds := Loc.holds_dropRef hi j
  change _ = _+((Ls p).dropRef i).holds j
  rw [setRef_inode]
  dsimp only
  split_ifs at hholds ⊢ with hj
  · subst hj
    omega
  · omega

section
variable (ha : (Ls p).alive = true)
include ha

theorem table_putMore (hi : i ∈ (Ls p).refs)
    (hs : (Ls p).stage = none) (hl : i ∈ (Ls p).locks → i ∈ (Ls p).refs.erase i) :
    TableInv (s.unref i) (update Ls p ((Ls p).dropRef i)) := by
  exact table_dropRef h ha hi (.of_eq rfl) (fun _ _ hst => Loc.no_stage hs hst) hl

theorem table_drop (hs : (Ls p).stage = some (i, .dropping)) : TableInv (s.unref i)
      (update Ls p { (Ls p).dropRef i with stage := none }) := by
  obtain ⟨hi, -, hnolock, -⟩ := (h.table.proc p).stage i .dropping hs
  apply table_dropRef h ha hi
  · intro j st hst
    rw [hs]
    constructor
    · intro h'
      cases h'
    · intro h'
      cases h'
      exact absurd rfl hst
  · intro j st hst
    cases hst
  · intro hlock
    exact absurd hlock (hnolock rfl)

theorem table_takeCwd (hc : (Ls p).cwd = some i) :
    TableInv s (update Ls p { (Ls p).addRef i with cwd := none }) := by
  have hk : Kept p s Ls s { (Ls p).addRef i with cwd := none } := by
    have hL : ({ (Ls p).addRef i with cwd := none } : Loc).alive = true := ha
    have hrefs := List.subset_cons_self i (Ls p).refs
    exact .of_refs h ha hL (.of_eq rfl rfl) rfl rfl (.inr rfl) rfl hrefs
      (backs_of_subset h.table hrefs fun _ _ _ hf => hf) (fun _ _ ht => ht) fun _ _ => .inl
  refine hk.recounted h rfl (fun j => ?_) fun _ => id
  rw [Loc.holds_takeCwd hc]

theorem kept_setCwd (hs : (Ls p).stage = none) (hl : i ∉ (Ls p).locks) :
    Kept p s Ls (s.setProc p { s.proc p with cwd := some i })
      { (Ls p).dropRef i with cwd := some i } := by
  have hdrop := kept_dropRef h ha (.of_eq rfl) (fun _ _ hst => Loc.no_stage hs hst)
    (fun hlock => absurd hlock hl) (le_refl (s.inode i).ref)
  refine { hdrop with
    toKeptTable := .of_eq rfl rfl
    others := fun q hq => by simp [State.setProc, hq]
    num := fun j n hn => ⟨(hdrop.num j n hn).1, .inl hn.1⟩
    cwd := fun j hj => by simpa [State.setProc] using hj
    alive := ?_ }
  change (Ls p).alive = _
  simpa [State.setProc] using ha

theorem table_setCwd (hc : (Ls p).cwd = none) (hi : i ∈ (Ls p).refs)
    (hs : (Ls p).stage = none) (hl : i ∉ (Ls p).locks) :
    TableInv (s.setProc p { s.proc p with cwd := some i })
      (update Ls p { (Ls p).dropRef i with cwd := some i }) := by
  refine (kept_setCwd h ha hs hl).recounted h rfl (fun j => ?_) fun _ => id
  rw [Loc.holds_setCwd hc hi]
  rfl

end

omit h in
theorem kept_exit (hc : (Ls p).cwd = none) (hr : (Ls p).refs = []) (hl : (Ls p).locks = [])
    (hf : (Ls p).files = []) (hg : (Ls p).gone = none) (hs : (Ls p).stage = none) :
    Kept p s Ls (s.setProc p { s.proc p with cwd := none })
      { Ls p with alive := false, know := ∅ } where
  toKeptTable := .of_eq rfl rfl
  others q hq := by simp [State.setProc, hq]
  stage := .of_eq rfl
  staged _ _ hst := Loc.no_stage hs hst
  locks := rfl
  backed i hi := by
    rw [hl] at hi
    cases hi
  typed _ _ ht := ht.elim
  num _ _ hn := hn.elim
  cwd i hi := by
    rw [hc] at hi
    cases hi
  alive := by simp [State.setProc]
  dead _ := ⟨hr, hl, hf, hg, hs, rfl⟩

theorem table_exit (hc : (Ls p).cwd = none) (hr : (Ls p).refs = []) (hl : (Ls p).locks = [])
    (hf : (Ls p).files = []) (hg : (Ls p).gone = none) (hs : (Ls p).stage = none) :
    TableInv (s.setProc p { s.proc p with cwd := none })
      (update Ls p { Ls p with alive := false, know := ∅ }) := by
  exact Kept.recounted (kept_exit hc hr hl hf hg hs) h rfl (fun _ => rfl) fun _ => id

theorem cwd_pos (hi : (Ls q).cwd = some i) : 0 < (s.inode i).ref := by
  rw [h.table.counted]
  exact lt_of_lt_of_le (Loc.holds_pos_cwd hi) (le_total (·.holds i) s Ls i q)

theorem dead_cwd (ha : (Ls p).alive = false) : (Ls p).cwd = none := by
  have halive := (h.table.proc p).alive
  rw [ha] at halive
  cases hc : (Ls p).cwd with
  | none => rfl
  | some j =>
    rw [(h.table.proc p).cwd j hc] at halive
    cases halive

theorem kept_born (ha : (Ls p).alive = false) (hpos : 0 < (s.inode i).ref) :
    Kept p s Ls (s.bears p i) { Ls p with alive := true, cwd := some i } := by
  obtain ⟨-, hl, -, -, hs, hknow⟩ := (h.table.proc p).dead ha
  refine { KeptTable.recount _ (idup_inode s i) (fun _ => idup_pos s hpos) rfl with
    others := fun q hq => by simp [State.setProc, hq, idup]
    stage := .of_eq rfl
    staged := fun _ _ hst => Loc.no_stage hs hst
    locks := rfl
    backed := fun j hj => ?_
    typed := fun j t ht => ?_
    num := fun j n hn => ?_
    cwd := fun j hj => by simpa [State.setProc] using hj
    alive := by simp [State.setProc]
    dead := Bool.noConfusion }
  · rw [hl] at hj
    cases hj
  · rw [hknow] at ht
    exact ht.elim
  · rw [hknow] at hn
    exact hn.elim

theorem table_born (ha : (Ls p).alive = false) (hpos : 0 < (s.inode i).ref) : TableInv (s.bears p i)
      (update Ls p { Ls p with alive := true, cwd := some i }) := by
  have hnocwd := dead_cwd h ha
  refine (kept_born h ha hpos).recounted h rfl (fun j => ?_) fun _ => idup_pos s hpos
  change ((idup s i).inode j).ref+_ = _
  rw [idup_inode]
  unfold Loc.holds
  rw [hnocwd]
  simp only [Option.some.injEq, reduceCtorEq, if_false, eq_comm (a := i)]
  omega

theorem kept_openFile (f : Fin NFILE) (fl : OpenFile) (w : Bool) (ha : (Ls p).alive = true)
    (hs : (Ls p).stage = none) (hl : i ∈ (Ls p).locks) :
    Kept p s Ls (s.setFile f fl) ((Ls p).opens f i w) where
  toKeptTable := .of_eq rfl rfl
  others _ _ := rfl
  stage := .of_eq rfl
  staged _ _ hst := Loc.no_stage hs hst
  locks := rfl
  backed j hj := by
    by_cases hji : j = i
    · rw [hji]
      exact .inr ⟨f, w, Set.mem_insert _ _⟩
    · rcases (h.table.proc p).backed j hj with hmem | ⟨g, w, hg⟩
      · exact .inl ((List.mem_erase_of_ne hji).mpr hmem)
      · exact .inr ⟨g, w, Set.mem_insert_of_mem _ ⟨hg, Fact.noConfusion,
          fun _ => Fact.noConfusion⟩⟩
  typed j t ht := by
    rcases Set.mem_insert_iff.mp ht with heq | ⟨ht', -⟩
    · cases heq
    · refine ⟨ht', ?_⟩
      by_cases hji : j = i
      · rw [hji]
        exact .inr hl
      · rcases ((h.table.proc p).typed j t ht').1 with hmem | hlock
        · exact .inl ((List.mem_erase_of_ne hji).mpr hmem)
        · exact .inr hlock
  num j n hn := by
    rcases Set.mem_insert_iff.mp hn with heq | ⟨hn', -, hne⟩
    · cases heq
    · have hji : j ≠ i := by
        rintro rfl
        exact hne n rfl
      exact ⟨(List.mem_erase_of_ne hji).mpr ((h.table.proc p).num j n hn').1, .inl hn'⟩
  cwd := (h.table.proc p).cwd
  alive := (h.table.proc p).alive
  dead hd := not_dead ha hd

theorem table_openFile {fl : OpenFile} {w : Bool} (ha : (Ls p).alive = true)
    (hf : (s.file f).type = .FD_NONE) (hs : (Ls p).stage = none) (hr : i ∈ (Ls p).refs)
    (hl : i ∈ (Ls p).locks) (hfl : IsInode fl) (hip : fl.ip = i) :
    TableInv (s.setFile f fl) (update Ls p ((Ls p).opens f i w)) := by
  have hk := kept_openFile h f fl w ha hs hl
  apply hk.tableInv h
  · intro j
    have hloc := total_loc (·.holds j) s Ls j p ((Ls p).opens f i w)
    have hfile := total_file (·.holds j) s (update Ls p ((Ls p).opens f i w)) j f fl
    have hnone : fileHolds (s.file f) j = 0 := by
      simp [fileHolds, IsInode, hf]
    have hone : fileHolds fl j = if j = i then 1 else 0 := by
      unfold fileHolds
      rw [hip]
      simp [hfl, eq_comm]
    have hholds := Loc.holds_dropRef hr j
    have hopens : ((Ls p).opens f i w).holds j = ((Ls p).dropRef i).holds j := rfl
    have hcounted := h.table.counted j
    change (s.inode j).ref = total _ _ _ j
    unfold outstanding at hcounted
    omega
  · exact hk.unique h.table fun _ hj => hj

theorem kept_dropLast (f : Fin NFILE) (fl : OpenFile) (is : List (Fin NINODE))
    (ha : (Ls p).alive = true) (ho : (Ls p).OwnLocks) :
    Kept p s Ls (s.setFile f fl) ((Ls p).closes f is) := by
  have hL : ((Ls p).closes f is).alive = true := ha
  have hrefs := List.subset_append_right is (Ls p).refs
  exact .of_refs h ha hL (.of_eq rfl rfl) rfl rfl (.inl rfl) rfl hrefs (backs_ownLocks ho hrefs)
    (fun _ _ ht => ht.1.1) fun _ _ hn => .inl hn.1.1

omit h in
theorem count_inodesOf (fl : OpenFile) (l : List (Fin NINODE)) (j : Fin NINODE) :
    (inodesOf fl++l).count j = l.count j+fileHolds fl j := by
  unfold inodesOf fileHolds
  by_cases hfl : IsInode fl
  · simp only [hfl, if_true, true_and, List.count_append, List.count_singleton, beq_iff_eq]
    omega
  · simp [hfl]

omit h in
theorem Loc.holds_closes (L : Loc) (f : Fin NFILE) (fl : OpenFile) (j : Fin NINODE) :
    (L.closes f (inodesOf fl)).holds j = L.holds j+fileHolds fl j := by
  unfold Loc.closes Loc.holds
  rw [count_inodesOf]
  exact Nat.add_right_comm _ _ _

omit h in
theorem total_dropLast {w : Loc → ℕ}
    (hw : w ((Ls p).closes f (inodesOf (s.file f))) = w (Ls p)+fileHolds (s.file f) j) :
    total w (s.closeFile f) (update Ls p ((Ls p).closes f (inodesOf (s.file f)))) j =
      total w s Ls j := by
  have hloc := total_loc w s Ls j p ((Ls p).closes f (inodesOf (s.file f)))
  have hfile := total_file w s (update Ls p ((Ls p).closes f (inodesOf (s.file f)))) j f
    { s.file f with ref := 0, type := .FD_NONE }
  have hnone : fileHolds { s.file f with ref := 0, type := .FD_NONE } j = 0 := by
    simp [fileHolds, IsInode]
  unfold State.closeFile
  omega

theorem table_dropLast (ha : (Ls p).alive = true) (ho : (Ls p).OwnLocks) :
    TableInv (s.closeFile f) (update Ls p ((Ls p).closes f (inodesOf (s.file f)))) := by
  have hk := kept_dropLast h f { s.file f with ref := 0, type := .FD_NONE }
    (inodesOf (s.file f)) ha ho
  apply hk.tableInv h
  · intro j
    exact (h.table.counted j).trans (total_dropLast (Loc.holds_closes _ _ _ _)).symm
  · exact hk.unique h.table fun _ hj => hj

theorem table_ialloc (dp : Fin NINODE) {t : ℕ} (ha : (Ls p).alive = true)
    (hn : (s.dinode n).type = 0) :
    TableInv (s.ialloced n t) (update Ls p ((Ls p).allocs n dp t)) := by
  have hknow : TableSame p s Ls s ((Ls p).allocs n dp t) := by
    refine .own (backs_of_subset h.table (List.Subset.refl _) fun _ _ _ hf =>
      Set.mem_insert_of_mem _ (Set.mem_insert_of_mem _ hf)) ?_ ?_ (not_dead ha)
    · intro i u hu
      simpa [Loc.learn] using hu
    · intro i m hm
      exact .inl (by simpa [Loc.learn] using hm)
  have hk : Kept p s Ls (s.ialloced n t) ((Ls p).allocs n dp t) := by
    refine { hknow.kept h.table with lock := fun _ => rfl, disk := ?_ }
    intro m hm
    have hne : m ≠ n := by
      rintro rfl
      exact hm hn
    simp [hne]
  exact hk.recounted h rfl (fun _ => rfl) fun _ => id

end References

end Xv6.Inodes
