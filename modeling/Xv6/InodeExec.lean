import Xv6.InodeDirectory
import Xv6.InodeTyping

/-! The rules are sound: every operation that returns is a sequence of effects that leaves the
process with what the rules give. -/
namespace Xv6.Inodes

open Interleaving Function

variable {md : Mode} {p q : Fin NPROC} {s s' : State} {Ls : Locs} {L' : Loc} {i j : Fin NINODE}
  {f : Fin NFILE}

theorem mem_inodeIndices (i : Fin NINODE) : i ∈ inodeIndices := by
  unfold inodeIndices
  exact List.mem_finRange i

/-- What the state must be like for an operation: `iget` of a number from a directory finds an
inode with a link, or else a file that is written is no directory. -/
def Admits (md : Mode) : {β : Type} → Op β → State → Prop
  | _, .iget inum, s => md.careful → Linked s inum
  | _, .write _ i _ _, s => ¬ md.careful → md.ordered → (s.inode i).d.type ≠ T_DIR
  | _, _, _ => True

/-- `p` goes from `Ls p` to `L'` while the state goes from `s` to `s'`. -/
def Becomes (md : Mode) (p : Fin NPROC) (s : State) (Ls : Locs) (s' : State) (L' : Loc) : Prop :=
  Effects md s Ls s' (update Ls p L')

theorem Becomes.refl (md : Mode) (p : Fin NPROC) (s : State) (Ls : Locs) :
    Becomes md p s Ls s (Ls p) := by
  unfold Becomes
  rw [update_eq_self]
  exact .refl s Ls

theorem Becomes.one (he : Effect md p s Ls s' (update Ls p L')) :
    Becomes md p s Ls s' L' := .tail p (.refl s Ls) he

/-- One more effect, in whatever case the others are. -/
theorem Becomes.then {s'' : State} {L'' : Loc} (h : Becomes md p s Ls s' L')
    (he : ∀ Ls', Ls' p = L' → (∀ q, q ≠ p → Ls' q = Ls q) → Effect md p s' Ls' s'' (update Ls' p L'')) :
    Becomes md p s Ls s'' L'' := by
  have hstep := he (update Ls p L') (update_self ..) fun _ hq => update_of_ne hq ..
  rw [update_idem] at hstep
  exact .tail p h hstep

variable {K : Set Fact} {b : Fin NINODE} {n off : ℕ} {x : Choice} {fd : Fin NOFILE}

section
variable (h : Becomes md p s Ls s' L')
include h

theorem Becomes.forget (hK : L'.Forgets K) : Becomes md p s Ls s' { L' with know := K } := by
  refine h.then fun Ls' hL _ => ?_
  subst hL
  exact .forget K hK

theorem Becomes.learn (φ : Fact) (ha : L'.alive = true) (hφ : Seen s' L' φ) :
    Becomes md p s Ls s' (L'.learn φ) := by
  refine h.then fun Ls' hL _ => ?_
  subst hL
  exact .learn φ ha hφ

theorem Becomes.loaded (ha : L'.alive = true) (hl : i ∈ L'.locks)
    (hs : L'.stage = none) (hv : (s'.inode i).valid = true) :
    Becomes md p s Ls s' (L'.loaded i (s'.inode i).d.type) := by
  refine h.then fun Ls' hL _ => ?_
  subst hL
  exact .loaded i ha hl hs hv

theorem Becomes.seek (f : Fin NFILE) (off : ℕ) :
    Becomes md p s Ls (s'.setFile f { s'.file f with off := off }) L' := by
  refine h.then fun Ls' hL _ => ?_
  subst hL
  exact .seek f off

end

/-- The outcome of an operation, by the rules. -/
def Follows (md : Mode) (p : Fin NPROC) (s : State) (Ls : Locs) {β : Type} (o : Op β) (b : β)
    (s' : State) : Prop :=
  ∃ L', Becomes md p s Ls s' L' ∧ gives md (Ls p) o b L'

/-- The rules are sound for an operation. -/
def Obeys (md : Mode) (p : Fin NPROC) (s : State) (Ls : Locs) {β : Type} (o : Op β) : Prop :=
  ∀ {x : Choice} {b : β} {s' : State}, need md (Ls p) o → exec p o x s = .done b s' →
    Follows md p s Ls o b s'

theorem becomes_iget (ha : (Ls p).alive = true) (new : Bool)
    (hsmall : md.ordered → n < 2^16) (hmay : md.careful → MayGet s (Ls p) new n)
    (hexec : iget s n = .done b s') : Becomes md p s Ls s' ((Ls p).got new b n) := by
  unfold iget at hexec
  cases hfind : inodeIndices.find? fun i => (s.inode i).ref > 0 ∧ (s.inode i).inum = n with
  | some i =>
    rw [hfind] at hexec
    have hi := List.find?_some hfind
    rw [decide_eq_true_eq] at hi
    cases hexec
    exact .one (.hold new b n ha hi.1 hi.2 fun hc => .inl (hmay hc))
  | none =>
    rw [hfind] at hexec
    cases hfree : inodeIndices.find? fun i => (s.inode i).ref = 0 with
    | none =>
      rw [hfree] at hexec
      cases hexec
    | some i =>
      rw [hfree] at hexec
      have hi := List.find?_some hfree
      rw [decide_eq_true_eq] at hi
      cases hexec
      refine .one (.recycle new b n ha hi ?_ hsmall hmay)
      intro j hj hjn
      have hnone := List.find?_eq_none.mp hfind j (mem_inodeIndices j)
      exact hnone (decide_eq_true ⟨hj, hjn⟩)

section
variable (h : Inv md s Ls) (ha : (Ls p).alive = true)
include h ha

theorem obeys_dupCwd : Obeys md p s Ls .dupCwd := by
  intro x b s' hneed hexec
  obtain ⟨c, hc⟩ := Option.isSome_iff_exists.mp hneed
  have hproc := (h.table.proc p).cwd c hc
  simp only [exec, hproc] at hexec
  cases hexec
  refine ⟨(Ls p).addRef b, ?_, hc, rfl⟩
  -- the number is not remembered
  have hold : Becomes md p s Ls (idup s b) ((Ls p).got false b (s.inode b).inum) :=
    .one (.hold false b _ ha (cwd_pos h hc) rfl fun _ => .inr ⟨rfl, hc⟩)
  apply hold.forget
  constructor
  · exact fun _ => Set.mem_insert_of_mem _
  · exact fun φ hφ _ hnum => (Set.mem_insert_iff.mp hφ).resolve_left (hnum b _)

theorem obeys_acquire {new : Option (Fin NINODE)} : Obeys md p s Ls (.acquire i new) := by
  rintro x _ s' ⟨hs, hb, -⟩ hexec
  simp only [exec, acquiresleep] at hexec
  split_ifs at hexec with href hlock
  cases hexec
  have hfree : (s.inode i).lock = none := by simpa using hlock
  exact ⟨_, .one (.acquire i ha hs hb hfree), not_locks h hfree, rfl⟩

theorem obeys_load : Obeys md p s Ls (.load i) := by
  rintro x _ s' ⟨hl, hs⟩ hexec
  have hborn (hc : md.careful) {u : ℕ} (hu : Fact.born i u ∈ (Ls p).know) :
      (s.dinode (s.inode i).inum).type = u := by
    obtain ⟨-, hd, -⟩ := ((h.links hc).proc p).born i u hu
    rw [hd]
  simp only [exec, load] at hexec
  split_ifs at hexec with hv htype
  · cases hexec
    refine ⟨_, .one (.loaded i ha hl hs hv), _, rfl, ?_⟩
    intro hc u hu
    have hb := h.table.not_busy hl hs
    rw [(h.table.agrees_of (h.locked_pos hl) hv hb).1]
    exact hborn hc hu
  · cases hexec
    have hload : Becomes md p s Ls (s.fill i) (Ls p) :=
      .one (.load i hl hs (by simpa using hv) htype)
    have hfill : (s.fill i).inode i =
        { s.inode i with d := s.dinode (s.inode i).inum, valid := true } := by
      rw [State.fill, setInode_inode, if_pos rfl]
    refine ⟨_, hload.loaded ha hl hs (by rw [hfill]), _, rfl, ?_⟩
    intro hc u hu
    rw [hfill]
    exact hborn hc hu

theorem obeys_put : Obeys md p s Ls (.put i) := by
  rintro x b s' ⟨hr, hs, hl⟩ hexec
  simp only [exec, put, acquiresleep] at hexec
  split_ifs at hexec with hlast hlock
  · cases hexec
    have hfree : (s.inode i).lock = none := by simpa using hlock
    refine ⟨_, .one (.putLast i ha hr hs hlast.1 hlast.2.1 hlast.2.2 hfree), ?_⟩
    exact ⟨not_mem_erase h hlast.1, rfl⟩
  · cases hexec
    exact ⟨_, .one (.putMore i ha hr hs hl), rfl⟩

end

theorem becomes_store {d : Dnode} {data : ℕ → UInt8} (hl : i ∈ (Ls p).locks)
    (hs : (Ls p).stage = none) (ht : ∃ t, Fact.type i t ∈ (Ls p).know)
    (htype : d.type = (s.inode i).d.type) (hK : (Ls p).Forgets K)
    (hdir : md.ordered → (s.inode i).d.type = T_DIR → DirChange s (Ls p) i d data K) :
    Becomes md p s Ls ((s.setData (s.inode i).inum data).iupdate i d) { Ls p with know := K } :=
  .one (.store i d data K hl hs ht htype hK hdir)

theorem forgets_refl (L : Loc) : L.Forgets L.know := ⟨subset_rfl, fun _ hφ _ _ => hφ⟩

theorem forgets_names (L : Loc) (j : Fin NINODE) : L.Forgets (L.forgetNames j).know :=
  ⟨fun _ hφ => hφ.1, fun _ hφ hnamed _ => ⟨hφ, hnamed j⟩⟩

section
variable (h : Inv md s Ls) (ha : (Ls p).alive = true)
include h ha

theorem obeys_itrunc : Obeys md p s Ls (.itrunc i) := by
  intro x b s' hneed hexec
  cases hexec
  rcases hneed with hs | ⟨hs, hl, ht⟩
  · refine ⟨_, .one (.trunc i ha hs), ?_⟩
    simp only [gives, hs]
    rfl
  · -- `sys_open` truncates files only
    have hfile := (h.typed_disk ht).2.1
    refine ⟨_, becomes_store hl hs ⟨_, ht⟩ rfl (forgets_refl _) ?_, ?_⟩
    · intro _ hdir
      rw [hfile] at hdir
      cases hdir
    · simp only [gives, ← hs, if_true]

theorem obeys_inum : Obeys md p s Ls (.inum i) := by
  intro x b s' hneed hexec
  cases hexec
  refine ⟨_, .one (.learn (.num i (s.inode i).inum) ha ⟨hneed, rfl⟩), ?_, ?_, rfl⟩
  · intro ho
    obtain ⟨birth, clock, htree⟩ := h.tree ho
    exact htree.small i
  · exact fun n hn => ((h.table.proc p).num i n hn).2

theorem obeys_lookup {name : Name} : Obeys md p s Ls (.lookup j name) := by
  rintro x b s' ⟨hl, t, ht⟩ hexec
  simp only [exec, lookup] at hexec
  split_ifs at hexec with htype
  have htype' := not_not.mp htype
  have hdir : t = T_DIR := (h.typed_disk ht).2.1.symm.trans htype'
  subst hdir
  cases hfind : findEntry (s.data (s.inode j).inum) (s.inode j).d.size name
      (s.inode j).d.entries 0 with
  | none =>
    rw [hfind] at hexec
    cases hexec
  | some r =>
    rw [hfind] at hexec
    cases hexec
    have hforget : Becomes md p s Ls s ((Ls p).forgetNames j) :=
      .one (.forget _ (forgets_names (Ls p) j))
    cases b with
    | none => exact ⟨_, hforget, ht, rfl⟩
    | some r =>
      obtain ⟨hal, hin, hinum, hused, hname⟩ := findEntry_some hfind rfl
      have hlt : r.1 < 2^16 := by
        rw [← hinum]
        exact direntInum_lt _
      by_cases hdots : name = dot ∨ name = dotdot
      · refine ⟨_, hforget, ht, hlt, ?_⟩
        rw [if_pos hdots]
      · rw [not_or] at hdots
        refine ⟨_, hforget.learn (.named j r.2 r.1) ha ⟨hl, ?_, ?_⟩, ht, hlt, ?_⟩
        · exact ⟨ht, fun _ _ => Fact.noConfusion⟩
        · refine ⟨hal, hin, hinum, hused, ?_, ?_⟩
          · rw [hname]
            exact hdots.1
          · rw [hname]
            exact hdots.2
        · rw [if_neg (not_or.mpr hdots)]

end

theorem writei_type (ok : ℕ → Bool) (d : Dnode) (data bytes : ℕ → UInt8) (off n : ℕ) :
    (writei ok d data bytes off n).2.1.type = d.type := by
  unfold writei
  split_ifs
  · rfl
  · rfl
  · dsimp only
    split_ifs <;> rfl

theorem becomes_writeAt {bytes : ℕ → UInt8}
    (hl : i ∈ (Ls p).locks) (hs : (Ls p).stage = none) (ht : ∃ t, Fact.type i t ∈ (Ls p).know)
    (hK : (Ls p).Forgets K)
    (hdir : md.ordered → (s.inode i).d.type = T_DIR → DirChange s (Ls p) i
      (writei x.ok (s.inode i).d (s.data (s.inode i).inum) bytes off n).2.1
      (writei x.ok (s.inode i).d (s.data (s.inode i).inum) bytes off n).2.2 K) :
    Becomes md p s Ls (writeAt x s i bytes off n).2 { Ls p with know := K } := by
  unfold writeAt
  dsimp only
  split_ifs with hr
  · exact becomes_store hl hs ht (writei_type _ _ _ _ _ _) hK hdir
  · exact .one (.forget K hK)

theorem becomes_entry (h : Inv md s Ls) {bytes : ℕ → UInt8}
    (hl : i ∈ (Ls p).locks) (hs : (Ls p).stage = none) (ht : ∃ t, Fact.type i t ∈ (Ls p).know)
    (hentry : md.ordered → (s.inode i).d.size % DIRENTSIZE = 0 → off % DIRENTSIZE = 0 ∧
      ∀ n, direntInum bytes = n → n ≠ 0 → direntName bytes ≠ dot → direntName bytes ≠ dotdot →
        (∃ t, Fact.newborn n i t ∈ (Ls p).know) ∨
          ∃ j t, Fact.num j n ∈ (Ls p).know ∧ Fact.type j t ∈ (Ls p).know ∧ t ≠ T_DIR) :
    Becomes md p s Ls (writeAt x s i bytes off DIRENTSIZE).2 ((Ls p).forgetNames i) := by
  apply becomes_writeAt hl hs ht (forgets_names (Ls p) i)
  intro ho htype
  obtain ⟨birth, clock, htree⟩ := h.tree ho
  obtain ⟨t, ht⟩ := ht
  have hsize : (s.inode i).d.size % DIRENTSIZE = 0 := by
    have hd := (h.typed_disk ht).1
    rw [hd] at htype ⊢
    exact htree.sizes _ htype
  obtain ⟨hoff, hnew⟩ := hentry ho hsize
  exact dirChange_write x.ok bytes hsize hoff hnew fun o n hn => hn.2 o n rfl

theorem obeys_link (h : Inv md s Ls) {name : Name} : Obeys md p s Ls (.link j name n) := by
  rintro x b s' ⟨hs, hl, ht, hord⟩ hexec
  simp only [exec, link] at hexec
  cases hfind : findEmpty (s.data (s.inode j).inum) (s.inode j).d.size (s.inode j).d.entries 0 with
  | none =>
    rw [hfind] at hexec
    cases hexec
  | some off =>
    rw [hfind] at hexec
    cases hexec
    refine ⟨_, becomes_entry h hl hs ht ?_, rfl⟩
    intro ho _
    obtain ⟨-, hn, hmay⟩ := hord ho
    refine ⟨(findEmpty_some hfind rfl (Nat.zero_le _)).1, ?_⟩
    intro m hm _ hdot hdotdot
    rw [direntInum_direntBytes name hn] at hm
    subst hm
    rcases hmay with rfl | rfl | hmay
    · exact absurd (direntName_direntBytes n (by decide) dot_nul) hdot
    · exact absurd (direntName_direntBytes n (by decide) dotdot_nul) hdotdot
    · exact hmay

theorem obeys_erase (h : Inv md s Ls) : Obeys md p s Ls (.erase j off) := by
  rintro x b s' ⟨hs, hl, ht, hord⟩ hexec
  rw [exec_erase] at hexec
  cases hexec
  refine ⟨_, becomes_entry h hl hs ht ?_, rfl⟩
  intro ho _
  obtain ⟨n, hn⟩ := hord ho
  obtain ⟨birth, clock, htree⟩ := h.tree ho
  refine ⟨((htree.proc p).named j off n hn).2.2.aligned, ?_⟩
  -- the entry is empty
  intro m hm hm0
  exact absurd hm.symm hm0

theorem obeys_change (h : Inv md s Ls) {c : Change} : Obeys md p s Ls (.change i c) := by
  rintro x _ s' ⟨hs, hl, ht⟩ hexec
  cases hexec
  have hdata : s.setData (s.inode i).inum (s.data (s.inode i).inum) = s := by
    unfold State.setData
    rw [update_eq_self]
  have hsize := c.apply_size (s.inode i).d
  have hstore : Becomes md p s Ls ((s.setData (s.inode i).inum (s.data (s.inode i).inum)).iupdate i
      (c.apply (s.inode i).d)) { Ls p with know := (Ls p).know } := by
    apply becomes_store hl hs ht _ (forgets_refl _)
    · intro ho htype
      obtain ⟨birth, clock, htree⟩ := h.tree ho
      obtain ⟨t, ht⟩ := ht
      constructor
      · rw [hsize]
        have hd := (h.typed_disk ht).1
        rw [hd] at htype ⊢
        exact htree.sizes _ htype
      · intro off n he
        rw [hsize] at he
        exact .inl he
      · intro off n hn
        rw [hsize]
        exact ((htree.proc p).named i off n hn).2.2
    · exact c.apply_type _
  rw [hdata] at hstore
  exact ⟨_, hstore, rfl⟩

theorem findFree_some {dinode : ℕ → Dnode} {inum m : ℕ} (hfind : findFree dinode n inum = some m) :
    (dinode m).type = 0 ∧ inum ≤ m ∧ m < inum+n := by
  induction n generalizing inum with
  | zero => cases hfind
  | succ n ih =>
    unfold findFree at hfind
    split_ifs at hfind with hfree
    · cases hfind
      exact ⟨hfree, by omega⟩
    · obtain ⟨htype, hge, hlt⟩ := ih hfind
      exact ⟨htype, by omega⟩

theorem obeys_ialloc (h : Inv md s Ls) (ha : (Ls p).alive = true) {dp : Fin NINODE} {type : ℕ} :
    Obeys md p s Ls (.ialloc dp type) := by
  rintro x b s' ⟨ht, hdir⟩ hexec
  simp only [exec] at hexec
  cases hfind : findFree s.dinode (s.ninodes-(x.passed+1)) (x.passed+1) with
  | none =>
    rw [hfind] at hexec
    cases hexec
    exact ⟨_, .refl md p s Ls, rfl⟩
  | some n =>
    rw [hfind] at hexec
    cases hexec
    obtain ⟨hfree, hge, hlt⟩ := findFree_some hfind
    refine ⟨_, .one (.ialloc dp n type ha hfree ht hdir), ?_, rfl⟩
    intro ho
    obtain ⟨birth, clock, htree⟩ := h.tree ho
    have hle := htree.ninodes
    omega

theorem obeys_write (h : Inv md s Ls) {bytes : ℕ → UInt8}
    (hadmits : Admits md (.write f i bytes n) s) : Obeys md p s Ls (.write f i bytes n) := by
  rintro x b s' ⟨hs, hl, hopened, ht⟩ hexec
  cases hexec
  refine ⟨_, Becomes.seek (becomes_writeAt hl hs ht (forgets_refl _) ?_) f _, rfl⟩
  intro ho hdir
  -- the file is writable, so it is no directory
  have hne : (s.inode i).d.type ≠ T_DIR := by
    by_cases hc : md.careful
    · obtain ⟨-, hinode, hip, hw⟩ := (h.files.proc p).opened f i true hopened
      have howner := (h.files.owner f hinode).2.2 hc hw
      rw [hip] at howner
      exact howner
    · exact hadmits hc ho
  exact absurd hdir hne

/-! ## Files and processes -/

theorem obeys_filealloc (ha : (Ls p).alive = true) : Obeys md p s Ls .filealloc := by
  intro x b s' _ hexec
  simp only [exec, filealloc] at hexec
  cases hfind : fileIndices.find? fun f => (s.file f).ref = 0 with
  | none =>
    rw [hfind] at hexec
    cases hexec
    exact ⟨_, .refl md p s Ls, rfl⟩
  | some f =>
    rw [hfind] at hexec
    cases hexec
    have hf := List.find?_some hfind
    rw [decide_eq_true_eq] at hf
    exact ⟨_, .one (.filealloc f ha hf), rfl⟩

theorem slots_eq (h : Inv md s Ls) (hg : (Ls p).gone = none) (fd : Fin NOFILE) :
    (s.proc p).ofile fd = (Ls p).slots fd := by
  apply (h.files.proc p).slots fd
  rw [hg]
  simp

theorem obeys_fdalloc (h : Inv md s Ls) (ha : (Ls p).alive = true) :
    Obeys md p s Ls (.fdalloc f) := by
  rintro x b s' ⟨hf, hg⟩ hexec
  simp only [exec, fdalloc] at hexec
  cases hfind : fdIndices.find? fun fd => (s.proc p).ofile fd = none with
  | none =>
    rw [hfind] at hexec
    cases hexec
    exact ⟨_, .refl md p s Ls, rfl⟩
  | some fd =>
    rw [hfind] at hexec
    cases hexec
    have hfd := List.find?_some hfind
    rw [decide_eq_true_eq, slots_eq h hg] at hfd
    exact ⟨_, .one (.fdalloc fd f ha hf hfd hg), hfd, rfl⟩

theorem obeys_openFile (h : Inv md s Ls) (ha : (Ls p).alive = true) {d : Dnode} {omode : ℕ} :
    Obeys md p s Ls (.openFile f i d omode) := by
  rintro x _ s' ⟨hf, hfd, hs, hr, hl, ht, hw⟩ hexec
  cases hexec
  have htype := (h.typed_disk ht).2.1
  have hinode : IsInode (openedFile (s.file f) i d omode) := by
    unfold IsInode openedFile
    split_ifs
    · exact .inr rfl
    · exact .inl rfl
  rw [← htype] at ht hw
  exact ⟨_, .one (.openFile f i _ ha hf hfd hs hr hl ht rfl hinode rfl hw), rfl⟩

theorem obeys_dropFile (ha : (Ls p).alive = true) : Obeys md p s Ls (.dropFile f) := by
  rintro x b s' ⟨hf, ho⟩ hexec
  simp only [exec, dropFile] at hexec
  split_ifs at hexec with hpos hmany hinode
  · cases hexec
    exact ⟨_, .one (.dropFile f ha hf ho hmany), rfl⟩
  all_goals
    cases hexec
    have hone : (s.file f).ref = 1 := by omega
    refine ⟨_, .one (.dropLast f ha hf ho hone), ?_⟩
    simp only [gives, Loc.closes, IsInode, hinode, if_true, if_false]
    rfl

theorem obeys_dupFile (h : Inv md s Ls) : Obeys md p s Ls (.dupFile fd) := by
  rintro x b s' ⟨hg, hfresh⟩ hexec
  simp only [exec, dupFile, fdalloc] at hexec
  cases hslot : (s.proc p).ofile fd with
  | none =>
    rw [hslot] at hexec
    cases hexec
    exact ⟨_, .refl md p s Ls, rfl⟩
  | some f =>
    rw [hslot] at hexec
    rw [slots_eq h hg] at hslot
    cases hfind : fdIndices.find? fun fd => (s.proc p).ofile fd = none with
    | none =>
      rw [hfind] at hexec
      cases hexec
      exact ⟨_, .refl md p s Ls, rfl⟩
    | some fd' =>
      rw [hfind] at hexec
      dsimp only at hexec
      split_ifs at hexec with hpos
      cases hexec
      have hfd := List.find?_some hfind
      rw [decide_eq_true_eq, slots_eq h hg] at hfd
      exact ⟨_, .one (.dupFd fd' f ⟨p, fd, hslot, hfresh f⟩ hfd hg), f, hslot, hfd, rfl⟩

theorem obeys_fileFields (ha : (Ls p).alive = true) : Obeys md p s Ls (.fileFields f) := by
  intro x b s' hneed hexec
  cases hexec
  by_cases hinode : IsInode (s.file f)
  · exact ⟨_, .one (.learn (.opened f (s.file f).ip (s.file f).writable) ha
      ⟨hneed, hinode, rfl, rfl⟩), (if_pos hinode).symm⟩
  · exact ⟨_, .refl md p s Ls, (if_neg hinode).symm⟩

section
variable (h : Inv md s Ls) (ha : (Ls p).alive = true)
include h ha

theorem obeys_takeFile : Obeys md p s Ls (.takeFile fd) := by
  rintro x b s' ⟨hg, ho⟩ hexec
  cases hexec
  refine ⟨_, .one (.takeFd fd ha hg ho), slots_eq h hg fd, ?_⟩
  rw [slots_eq h hg]
  rfl

theorem obeys_exitFile : Obeys md p s Ls (.exitFile fd) := by
  rintro x b s' ⟨hg, ho⟩ hexec
  cases hexec
  refine ⟨_, .one (.exitFd fd ha hg ho), slots_eq h hg fd, ?_⟩
  rw [slots_eq h hg]
  rfl

theorem obeys_takeCwd : Obeys md p s Ls .takeCwd := by
  intro x b s' hneed hexec
  obtain ⟨c, hc⟩ := Option.isSome_iff_exists.mp hneed
  have hproc := (h.table.proc p).cwd c hc
  simp only [exec, hproc] at hexec
  cases hexec
  exact ⟨_, .one (.takeCwd b ha hc), hc, rfl⟩

end

theorem obeys_setCwd (ha : (Ls p).alive = true) {o : Option (Fin NINODE)} :
    Obeys md p s Ls (.setCwd o) := by
  intro x b s' hneed hexec
  cases hexec
  cases o with
  | none =>
    obtain ⟨hc, hr, hl, hf, hg, hs, -⟩ := hneed
    exact ⟨_, .one (.exit ha hc hr hl hf hg hs), rfl⟩
  | some i =>
    obtain ⟨hc, hr, hs, hl⟩ := hneed
    exact ⟨_, .one (.setCwd i ha hc hr hs hl), rfl⟩

/-! ## `kfork` -/

theorem Becomes.dupFd (h : Becomes md p s Ls s' L') (hq : q ≠ p)
    (hf : ∃ fd, (Ls q).slots fd = some f ∧ Fact.fresh f ∉ (Ls q).know)
    (hfd : L'.slots fd = none) (hg : L'.gone = none) :
    Becomes md p s Ls
      (setFd p (s'.setFile f { s'.file f with ref := (s'.file f).ref+1 }) fd (some f))
      { L' with slots := update L'.slots fd (some f) } := by
  refine h.then fun Ls' hL hother => ?_
  subst hL
  rw [← hother q hq] at hf
  exact .dupFd fd f ⟨q, hf⟩ hfd hg

/-- The loop over the descriptors: the new process gets a reference to each file of the old one. -/
theorem becomes_forkFiles {np : Fin NPROC} (hnp : p ≠ np) {fds : List (Fin NOFILE)} {s0 : State}
    {L : Loc} (h : Becomes md np s0 Ls s L)
    (hslots : ∀ fd, (s.proc p).ofile fd = (Ls p).slots fd)
    (hfresh : ∀ f, Fact.fresh f ∉ (Ls p).know) (hnodup : fds.Nodup)
    (hfree : ∀ fd ∈ fds, L.slots fd = none) (hg : L.gone = none)
    (hexec : forkFiles p np fds s = .done () s') :
    ∃ slots, Becomes md np s0 Ls s' { L with slots := slots } ∧ s'.proc p = s.proc p := by
  induction fds generalizing s L with
  | nil =>
    cases hexec
    exact ⟨L.slots, h, rfl⟩
  | cons fd fds ih =>
    obtain ⟨hnot, hnodup⟩ := List.nodup_cons.mp hnodup
    unfold forkFiles at hexec
    cases hslot : (s.proc p).ofile fd with
    | none =>
      rw [hslot] at hexec
      exact ih h hslots hnodup (fun g hg => hfree g (List.mem_cons_of_mem _ hg)) hg hexec
    | some f =>
      rw [hslot] at hexec
      dsimp only at hexec
      split_ifs at hexec with hpos
      have hproc : (setFd np (s.setFile f { s.file f with ref := (s.file f).ref+1 }) fd
          (some f)).proc p = s.proc p := update_of_ne hnp _ _
      have hstep := h.dupFd hnp ⟨fd, (hslots fd).symm.trans hslot, hfresh f⟩
        (hfree fd List.mem_cons_self) hg
      obtain ⟨slots, hbecomes, hsame⟩ := ih hstep (by rwa [hproc]) hnodup (by
        intro fd' hfd'
        have hne : fd' ≠ fd := by
          rintro rfl
          exact hnot hfd'
        dsimp only
        rw [update_of_ne hne]
        exact hfree fd' (List.mem_cons_of_mem _ hfd')) hg hexec
      exact ⟨slots, hbecomes, hsame.trans hproc⟩

theorem nodup_fdIndices : fdIndices.Nodup := by
  unfold fdIndices
  exact List.nodup_finRange NOFILE

/-- `kfork` gives the new process what its parent has, and nothing to anybody else. -/
theorem fork_effects (h : Inv md s Ls) (ha : (Ls p).alive = true) {np : Fin NPROC}
    (hneed : need md (Ls p) (.fork np)) (hexec : exec p (.fork np) x s = .done () s') :
    ∃ L', Becomes md np s Ls s' L' ∧ p ≠ np ∧ (Ls np).Dead ∧ L'.Idle := by
  obtain ⟨hg, hcwd, hfresh⟩ := hneed
  obtain ⟨c, hc⟩ := Option.isSome_iff_exists.mp hcwd
  simp only [exec, fork] at hexec
  split_ifs at hexec with hunused
  have hdead : (Ls np).alive = false := by
    rw [(h.table.proc np).alive, hunused.1]
    rfl
  have hnp : p ≠ np := by
    rintro rfl
    rw [ha] at hdead
    cases hdead
  obtain ⟨hrefs, hlocks, hfiles, hgone, hstage, -⟩ := (h.table.proc np).dead hdead
  cases hloop : forkFiles p np fdIndices s with
  | wait | stop =>
    rw [hloop] at hexec
    cases hexec
  | done u s1 =>
    rw [hloop] at hexec
    dsimp only at hexec
    obtain ⟨slots, hbecomes, hproc⟩ := becomes_forkFiles hnp (.refl md np s Ls) (slots_eq h hg)
      hfresh nodup_fdIndices (by
        intro fd _
        rw [← slots_eq h hgone]
        exact hunused.2 fd) hgone hloop
    rw [hproc, (h.table.proc p).cwd c hc] at hexec
    cases hexec
    refine ⟨{ Ls np with slots := slots, alive := true, cwd := some c }, hbecomes.then ?_, hnp, hdead,
      hrefs, hlocks, hfiles, hgone, hstage, fun _ => rfl⟩
    intro Ls' hL hother
    have hborn : Effect md np s1 Ls' _ _ := .born c (by rw [hL]; exact hdead) ⟨p, by rwa [hother p hnp]⟩
    rwa [hL] at hborn

/-! ## All operations -/

/-- What an operation does to what the processes own. -/
def Steps (md : Mode) (p : Fin NPROC) (s : State) (Ls : Locs) {β : Type} (o : Op β) (b : β)
    (s' : State) : Prop :=
  ∃ Ls', Effects md s Ls s' Ls' ∧ gives md (Ls p) o b (Ls' p) ∧
    ∀ q, q ≠ p → Ls' q = Ls q ∨ (Ls q).Dead ∧ (Ls' q).Idle

theorem Follows.steps {β : Type} {o : Op β} {b : β} (h : Follows md p s Ls o b s') :
    Steps md p s Ls o b s' := by
  obtain ⟨L', hbecomes, hgives⟩ := h
  refine ⟨_, hbecomes, ?_, ?_⟩
  · rw [update_self]
    exact hgives
  · exact fun q hq => .inl (update_of_ne hq _ _)

theorem exec_steps (h : Inv md s Ls) (ha : (Ls p).alive = true) {β : Type} {o : Op β}
    {b : β} (hneed : need md (Ls p) o) (hadmits : Admits md o s)
    (hexec : exec p o x s = .done b s') : Steps md p s Ls o b s' := by
  have hrefl := Becomes.refl md p s Ls
  cases o with
  | iget n => exact Follows.steps ⟨_, becomes_iget ha false hneed hadmits hexec, rfl⟩
  | igetNew n =>
    exact Follows.steps ⟨_, becomes_iget ha true hneed.1 (fun _ => hneed.2) hexec, rfl⟩
  | dupCwd => exact (obeys_dupCwd h ha hneed hexec).steps
  | acquire i new => exact (obeys_acquire h ha hneed hexec).steps
  | load i => exact (obeys_load h ha hneed hexec).steps
  | unlock i =>
    simp only [exec] at hexec
    split_ifs at hexec with hlock
    cases hexec
    exact Follows.steps ⟨_, .one (.unlock i ha hneed.1 hneed.2), rfl⟩
  | put i => exact (obeys_put h ha hneed hexec).steps
  | itrunc i => exact (obeys_itrunc h ha hneed hexec).steps
  | free i =>
    cases hexec
    exact Follows.steps ⟨_, .one (.free i ha hneed), rfl⟩
  | invalidate i =>
    cases hexec
    exact Follows.steps ⟨_, .one (.invalidate i ha hneed), rfl⟩
  | drop i =>
    cases hexec
    exact Follows.steps ⟨_, .one (.drop i ha hneed), rfl⟩
  | fields i =>
    cases hexec
    exact Follows.steps ⟨_, hrefl, fun t ht => (h.typed_disk ht).2.1, rfl⟩
  | inum i => exact (obeys_inum h ha hneed hexec).steps
  | lookup j name => exact (obeys_lookup h ha hneed hexec).steps
  | link j name n => exact (obeys_link h hneed hexec).steps
  | isdirempty i =>
    simp only [exec] at hexec
    cases hempty : allEmpty (s.data (s.inode i).inum) (s.inode i).d.size
        ((s.inode i).d.entries-2) (2*DIRENTSIZE) with
    | none =>
      rw [hempty] at hexec
      cases hexec
    | some r =>
      rw [hempty] at hexec
      cases hexec
      exact Follows.steps ⟨_, hrefl, rfl⟩
  | change i c => exact (obeys_change h hneed hexec).steps
  | erase j off => exact (obeys_erase h hneed hexec).steps
  | ialloc dp type => exact (obeys_ialloc h ha hneed hexec).steps
  | write f i bytes n => exact (obeys_write h hadmits hneed hexec).steps
  | read f i n =>
    cases hexec
    exact Follows.steps ⟨_, hrefl.seek f _, rfl⟩
  | readi i off n =>
    cases hexec
    exact Follows.steps ⟨_, hrefl, rfl⟩
  | filealloc => exact (obeys_filealloc ha hneed hexec).steps
  | fdalloc f => exact (obeys_fdalloc h ha hneed hexec).steps
  | openFile f i d omode => exact (obeys_openFile h ha hneed hexec).steps
  | dropFile f => exact (obeys_dropFile ha hneed hexec).steps
  | argFile fd =>
    cases hexec
    exact Follows.steps ⟨_, hrefl, (h.files.proc p).slots fd hneed, rfl⟩
  | takeFile fd => exact (obeys_takeFile h ha hneed hexec).steps
  | dupFile fd => exact (obeys_dupFile h hneed hexec).steps
  | fileFields f => exact (obeys_fileFields ha hneed hexec).steps
  | exitFile fd => exact (obeys_exitFile h ha hneed hexec).steps
  | clearFd fd =>
    cases hexec
    exact Follows.steps ⟨_, .one (.clearFd fd ha hneed), rfl⟩
  | takeCwd => exact (obeys_takeCwd h ha hneed hexec).steps
  | setCwd o => exact (obeys_setCwd ha hneed hexec).steps
  | fork np =>
    obtain ⟨L', hbecomes, hnp, hdead, hidle⟩ := fork_effects h ha hneed hexec
    refine ⟨_, hbecomes, ?_, ?_⟩
    · exact update_of_ne hnp _ _
    · intro q _
      by_cases hq : q = np
      · rw [hq, update_self]
        exact .inr ⟨hdead, hidle⟩
      · exact .inl (update_of_ne hq _ _)
  | panic msg => cases hexec

/-! ## Soundness -/

theorem Inv.effect {Ls' : Locs} (h : Inv md s Ls) (he : Effect md p s Ls s' Ls') :
    Inv md s' Ls' where
  table := TableInv.effect h he
  files := FileInv.effect h he
  tree ho := by
    obtain ⟨birth, clock, ht⟩ := h.tree ho
    exact TreeInv.effect ho h ht he
  links hc := LinkInv.effect hc h (h.links hc) he

theorem Inv.effects {Ls' : Locs} (h : Inv md s Ls) (he : Effects md s Ls s' Ls') :
    Inv md s' Ls' := by
  induction he with
  | refl => exact h
  | tail p _ he ih => exact (ih h).effect he

theorem rules_sound (md : Mode) : Sound exec (rules md) Loc.Idle Loc.Dead (Admits md) (Inv md) where
  dead hpre hdead := by
    rw [Loc.Dead, hpre.1] at hdead
    cases hdead
  step h hpre hadmits hexec := by
    obtain ⟨Ls', he, hgives, hother⟩ := exec_steps h hpre.1 hpre.2 hadmits hexec
    exact ⟨Ls', hgives, h.effects he, hother⟩

end Xv6.Inodes
