import Xv6.InodeFileSteps

/-! A directory that is named in another one was allocated later. Entries are written for new inodes
and for inodes that are no directories, and an inode that is allocated again is younger than before. -/
namespace Xv6.Inodes

open Interleaving Function

variable {md : Mode} {p q : Fin NPROC} {s s' : State} {Ls : Locs} {L' : Loc} {i j : Fin NINODE}
  {birth : ℕ → ℕ} {clock : ℕ}

/-- A process that knows that an inode it has locked is a directory is the only one to change it. -/
def Known (Ls : Locs) (q : Fin NPROC) (j : Fin NINODE) : Prop :=
  j ∈ (Ls q).locks ∧ Fact.type j T_DIR ∈ (Ls q).know

/-- The fact is about what stands, or will stand, in directory `j`. -/
inductive Fact.About (j : Fin NINODE) : Fact → Prop where
  | named (off n : ℕ) : About j (.named j off n)
  | newborn (n t : ℕ) : About j (.newborn n j t)

/-- What is known of directories, and what else it rests on, is no more than before. -/
def TreeForget (L L' : Loc) : Prop :=
  ∀ j φ, φ.About j → φ ∈ L'.know → φ ∈ L.know ∧ (j ∈ L.locks → Fact.type j T_DIR ∈ L.know →
    j ∈ L'.locks ∧ Fact.type j T_DIR ∈ L'.know)

/-- Directories stay as they are, on the disk and in entries that somebody knows. -/
structure TreeKept (p : Fin NPROC) (s : State) (Ls : Locs) (s' : State) (L' : Loc) : Prop where
  ninodes : s'.ninodes = s.ninodes
  dinode : s'.dinode = s.dinode
  data : s'.data = s.data
  small : ∀ j, (s.inode j).inum < 2^16 → (s'.inode j).inum < 2^16
  same : ∀ q j, Known Ls q j → (s'.inode j).inum = (s.inode j).inum ∧ (s'.inode j).d = (s.inode j).d
  facts : ∀ j φ, φ.About j → φ ∈ L'.know → (j ∈ L'.locks ∧ Fact.type j T_DIR ∈ L'.know) ∧
    (φ ∈ (Ls p).know ∨ Seen s' (Ls p) φ)

variable {n : ℕ} {d : Dnode}

theorem TreeLoc.known (h : TreeLoc birth s Ls q) {φ : Fact} (ha : φ.About j)
    (hφ : φ ∈ (Ls q).know) : Known Ls q j := by
  cases ha with
  | named off n => exact ⟨(h.named j off n hφ).1, (h.named j off n hφ).2.1⟩
  | newborn n t => exact ⟨(h.newborn n j t hφ).1, (h.newborn n j t hφ).2.1⟩

theorem TreeKept.treeInv (hk : TreeKept p s Ls s' L') (h : TreeInv birth clock s Ls) :
    TreeInv birth clock s' (update Ls p L') := by
  constructor
  · rw [hk.ninodes]
    exact h.ninodes
  · exact fun j => hk.small j (h.small j)
  · rw [hk.dinode]
    exact h.sizes
  · rw [hk.dinode, hk.data]
    exact h.entries
  · exact h.past
  · intro q
    have hold := h.proc q
    by_cases hq : q = p
    · subst hq
      constructor
      all_goals rw [update_self]
      · intro j off n hn
        obtain ⟨⟨hl, ht⟩, hcase⟩ := hk.facts j _ (.named off n) hn
        refine ⟨hl, ht, ?_⟩
        rcases hcase with hknown | hseen
        · obtain ⟨hi, hd⟩ := hk.same q j (hold.known (.named off n) hknown)
          rw [hk.data, hi, hd]
          exact (hold.named j off n hknown).2.2
        · exact hseen.2.2
      · intro n j t hn
        obtain ⟨⟨hl, ht⟩, hknown⟩ := hk.facts j _ (.newborn n t) hn
        have hknown := hknown.resolve_right id
        rw [(hk.same q j (hold.known (.newborn n t) hknown)).1]
        exact ⟨hl, ht, (hold.newborn n j t hknown).2.2⟩
    · have hL : update Ls p L' q = Ls q := update_of_ne hq _ _
      constructor
      all_goals rw [hL]
      · intro j off n hn
        obtain ⟨hi, hd⟩ := hk.same q j (hold.known (.named off n) hn)
        rw [hk.data, hi, hd]
        exact hold.named j off n hn
      · intro n j t hn
        rw [(hk.same q j (hold.known (.newborn n t) hn)).1]
        exact hold.newborn n j t hn

theorem TreeForget.facts (hf : TreeForget (Ls p) L') (ht : TreeInv birth clock s Ls)
    (j : Fin NINODE) (φ : Fact) (ha : φ.About j) (hφ : φ ∈ L'.know) :
    (j ∈ L'.locks ∧ Fact.type j T_DIR ∈ L'.know) ∧ (φ ∈ (Ls p).know ∨ Seen s' (Ls p) φ) := by
  obtain ⟨hold, hkeep⟩ := hf j φ ha hφ
  obtain ⟨hl, htj⟩ := (ht.proc p).known ha hold
  exact ⟨hkeep hl htj, .inl hold⟩

theorem TreeForget.same {L : Loc} (hknow : L'.know = L.know) (hlocks : L'.locks = L.locks) :
    TreeForget L L' := by
  intro j φ _ hφ
  rw [hknow] at hφ ⊢
  rw [hlocks]
  exact ⟨hφ, And.intro⟩

theorem TreeForget.forgets {L : Loc} {K : Set Fact} (hK : L.Forgets K) :
    TreeForget L { L with know := K } :=
  fun _ _ _ hφ => ⟨hK.subset hφ, fun hl htj => ⟨hl, hK.type.mpr htj⟩⟩

/-! ## Effects on the contents -/

section Contents
variable (h : Inv md s Ls) (ht : TreeInv birth clock s Ls)
include h ht

/-- New fields and contents for the inode in entry `i`, which `p` has locked: what other processes
know, and what `p` knows of other inodes, stays true. -/
theorem treeLoc_of_content (hu : Updated s i d s')
    (hdata : ∀ m, m ≠ (s.inode i).inum → s'.data m = s.data m) (hi : i ∈ (Ls p).locks)
    (hf : TreeForget (Ls p) L')
    (hnamed : ∀ off n, Fact.named i off n ∈ L'.know → IsEntry (s'.data (s.inode i).inum) d.size off n)
    (q : Fin NPROC) : TreeLoc birth s' (update Ls p L') q := by
  have hold := ht.proc q
  have hpos := h.locked_pos hi
  have hother {q : Fin NPROC} {j : Fin NINODE} (hj : j ∈ (Ls q).locks) (hne : j ≠ i) :
      s'.data (s'.inode j).inum = s.data (s.inode j).inum ∧
        (s'.inode j).d = (s.inode j).d ∧ (s'.inode j).inum = (s.inode j).inum := by
    have hinum := h.table.inum_ne (h.locked_pos hj) hpos hne
    rw [hu.inode]
    exact ⟨hdata _ hinum, if_neg hne, rfl⟩
  by_cases hq : q = p
  · subst hq
    constructor
    all_goals rw [update_self]
    · intro j off n hn
      obtain ⟨hknown, hkeep⟩ := hf j _ (.named off n) hn
      obtain ⟨hl, htj, hentry⟩ := hold.named j off n hknown
      refine ⟨(hkeep hl htj).1, (hkeep hl htj).2, ?_⟩
      by_cases hj : j = i
      · subst hj
        rw [hu.inode]
        simp only [if_true]
        exact hnamed off n hn
      · obtain ⟨hd, hd', -⟩ := hother hl hj
        rw [hd, hd']
        exact hentry
    · intro n j t hn
      obtain ⟨hknown, hkeep⟩ := hf j _ (.newborn n t) hn
      obtain ⟨hl, htj, hbirth⟩ := hold.newborn n j t hknown
      rw [hu.inode]
      exact ⟨(hkeep hl htj).1, (hkeep hl htj).2, hbirth⟩
  · have hL : update Ls p L' q = Ls q := update_of_ne hq _ _
    constructor
    all_goals rw [hL]
    · intro j off n hn
      obtain ⟨hl, htj, hentry⟩ := hold.named j off n hn
      have hj : j ≠ i := by
        rintro rfl
        have hp := ((h.table.proc p).locked j).mp hi
        rw [((h.table.proc q).locked j).mp hl] at hp
        exact hq (Option.some.inj hp)
      obtain ⟨hd, hd', -⟩ := hother hl hj
      rw [hd, hd']
      exact ⟨hl, htj, hentry⟩
    · intro n j t hn
      rw [hu.inode]
      exact hold.newborn n j t hn

theorem tree_store {data : ℕ → UInt8} {K : Set Fact} (hl : i ∈ (Ls p).locks)
    (hkn : ∃ t, Fact.type i t ∈ (Ls p).know) (htype : d.type = (s.inode i).d.type)
    (hK : (Ls p).Forgets K)
    (hdir : (s.inode i).d.type = T_DIR → DirChange s (Ls p) i d data K) :
    TreeInv birth clock ((s.setData (s.inode i).inum data).iupdate i d)
      (update Ls p { Ls p with know := K }) := by
  have hu := updated_store s i d data
  have hold := ht.proc p
  obtain ⟨u, hu'⟩ := hkn
  obtain ⟨hdisk, htypei, -⟩ := h.typed_disk hu'
  have hdata (m : ℕ) : ((s.setData (s.inode i).inum data).iupdate i d).data m =
      if m = (s.inode i).inum then data else s.data m := by
    change update s.data (s.inode i).inum data m = _
    rw [update_apply]
  -- no inode changes its type
  have htypes (m : ℕ) : (((s.setData (s.inode i).inum data).iupdate i d).dinode m).type =
      (s.dinode m).type := by
    rw [hu.dinode]
    split_ifs with hm
    · rw [hm, htype, hdisk]
    · rfl
  constructor
  · exact ht.ninodes
  · intro j
    rw [hu.inode]
    exact ht.small j
  · intro m hm
    rw [htypes] at hm
    rw [hu.dinode]
    split_ifs with heq
    · rw [heq, ← hdisk] at hm
      exact (hdir hm).size
    · exact ht.sizes m hm
  · intro m hm off n hentry hn
    rw [htypes] at hm hn
    rw [hdata, hu.dinode] at hentry
    split_ifs at hentry with heq
    · rw [heq, ← hdisk] at hm
      rw [heq]
      rcases (hdir hm).entries off n hentry with hwas | ⟨t, hnew⟩ | ⟨j, t, hnum, htj, hne⟩
      · rw [hdisk] at hwas hm
        exact ht.entries _ hm off n hwas hn
      · exact (hold.newborn n i t hnew).2.2
      · -- the entry is for an inode that is no directory
        obtain ⟨hdj, htj', -⟩ := h.typed_disk htj
        rw [((h.table.proc p).num j n hnum).2] at hdj
        rw [← hdj, htj'] at hn
        exact absurd hn hne
    · exact ht.entries m hm off n hentry hn
  · exact ht.past
  · apply treeLoc_of_content h ht hu
    · intro m hm
      rw [hdata, if_neg hm]
    · exact hl
    · exact .forgets hK
    · intro off n hn
      have htdir := (hold.named i off n (hK.subset hn)).2.1
      rw [hdata, if_pos rfl]
      exact (hdir (h.typed_disk htdir).2.1).named off n hn

theorem tree_freeing {st st' : Stage} (hu : Updated s i d s') (hninodes : s'.ninodes = s.ninodes)
    (hdata : ∀ m, m ≠ (s.inode i).inum → s'.data m = s.data m)
    (hs : (Ls p).stage = some (i, st)) (hst : st ≠ .dropping) (hd : d.type = T_DIR → d.size = 0)
    (htype : d.type = T_DIR → (s.inode i).d.type = T_DIR) (hdisk : (s.inode i).d =
      s.dinode (s.inode i).inum) :
    TreeInv birth clock s' (update Ls p { Ls p with stage := some (i, st') }) := by
  have hi := (((h.table.proc p).stage i st hs).2.1 hst).1
  have hbusy : Busy Ls i := ⟨p, st, hs, hst⟩
  -- only a directory that was one before can be one after
  have htypes (m : ℕ) (hm : (s'.dinode m).type = T_DIR) : (s.dinode m).type = T_DIR := by
    rw [hu.dinode] at hm
    split_ifs at hm with heq
    · rw [heq, ← hdisk]
      exact htype hm
    · exact hm
  constructor
  · rw [hninodes]
    exact ht.ninodes
  · intro j
    rw [hu.inode]
    exact ht.small j
  · intro m hm
    have hm' := htypes m hm
    rw [hu.dinode] at hm ⊢
    split_ifs at hm ⊢ with heq
    · rw [hd hm]
      rfl
    · exact ht.sizes m hm'
  · intro m hm off n hentry hn
    have hm' := htypes m hm
    rw [hu.dinode] at hm hentry
    split_ifs at hm hentry with heq
    · have hin := hentry.inside
      unfold DIRENTSIZE at hin
      omega
    · rw [hdata m heq] at hentry
      exact ht.entries m hm' off n hentry (htypes n hn)
  · exact ht.past
  · refine treeLoc_of_content h ht hu hdata hi (.same rfl rfl) ?_
    intro off n hn
    have htdir := ((ht.proc p).named i off n hn).2.1
    exact absurd hbusy ((h.table.proc p).typed i _ htdir).2.2.2

theorem tree_ialloc (dp : Fin NINODE) {t : ℕ} (hn : (s.dinode n).type = 0)
    (hdir : dp ∈ (Ls p).locks ∧ Fact.type dp T_DIR ∈ (Ls p).know) :
    TreeInv (update birth n clock) (clock+1) (s.ialloced n t)
      (update Ls p ((Ls p).allocs n dp t)) := by
  have hne : (0 : ℕ) ≠ T_DIR := by decide
  -- the number of a directory that somebody knows is not free
  have hknown {q : Fin NPROC} {j : Fin NINODE} (htj : Fact.type j T_DIR ∈ (Ls q).know) :
      (s.inode j).inum ≠ n := by
    intro heq
    obtain ⟨hd, htype, -⟩ := h.typed_disk htj
    rw [heq] at hd
    rw [hd, hn] at htype
    exact hne htype
  have hyoung {m k : ℕ} (hm : m ≠ n) (hlt : k ≠ n → birth m < birth k) :
      update birth n clock m < update birth n clock k := by
    rw [update_of_ne hm]
    by_cases hk : k = n
    · rw [hk, update_self]
      exact ht.past m
    · rw [update_of_ne hk]
      exact hlt hk
  constructor
  · exact ht.ninodes
  · exact ht.small
  · intro m hm
    dsimp only at hm ⊢
    rw [update_apply] at hm ⊢
    split_ifs at hm ⊢
    · rfl
    · exact ht.sizes m hm
  · intro m hm off k hentry hk
    dsimp only at hm hentry hk
    by_cases hmn : m = n
    · subst hmn
      rw [update_self] at hentry
      have hin := hentry.inside
      unfold DIRENTSIZE at hin
      dsimp only at hin
      omega
    · rw [update_of_ne hmn] at hm hentry
      apply hyoung hmn
      intro hkn
      rw [update_of_ne hkn] at hk
      exact ht.entries m hm off k hentry hk
  · intro m
    rw [update_apply]
    split_ifs
    · exact Nat.lt_succ_self clock
    · exact Nat.lt_succ_of_lt (ht.past m)
  · intro q
    have hold := ht.proc q
    by_cases hq : q = p
    · subst hq
      constructor
      all_goals rw [update_self]
      · intro j off k hk
        have hk' : Fact.named j off k ∈ (Ls q).know := by simpa [Loc.learn] using hk
        obtain ⟨hl, htj, hentry⟩ := hold.named j off k hk'
        exact ⟨hl, by simpa [Loc.learn] using htj, hentry⟩
      · intro k j u hk
        have hk' : Fact.newborn k j u ∈ (Ls q).know ∨ k = n ∧ j = dp := by
          simp only [Loc.learn, Set.mem_insert_iff, reduceCtorEq, false_or, Fact.newborn.injEq] at hk
          rcases hk with ⟨hkn, hj, -⟩ | hk
          · exact .inr ⟨hkn, hj⟩
          · exact .inl hk
        rcases hk' with hk' | ⟨rfl, rfl⟩
        · obtain ⟨hl, htj, hbirth⟩ := hold.newborn k j u hk'
          exact ⟨hl, by simpa [Loc.learn] using htj, hyoung (hknown htj) fun _ => hbirth⟩
        · exact ⟨hdir.1, by simpa [Loc.learn] using hdir.2,
            hyoung (hknown hdir.2) (absurd rfl)⟩
    · have hL : update Ls p ((Ls p).allocs n dp t) q =
          Ls q := update_of_ne hq _ _
      constructor
      all_goals rw [hL]
      · exact hold.named
      · intro k j u hk
        obtain ⟨hl, htj, hbirth⟩ := hold.newborn k j u hk
        exact ⟨hl, htj, hyoung (hknown htj) fun _ => hbirth⟩

end Contents

/-! ## All effects -/

/-- The state keeps numbers and fields. -/
structure SameFields (s s' : State) : Prop where
  ninodes : s'.ninodes = s.ninodes
  dinode : s'.dinode = s.dinode
  data : s'.data = s.data
  inode : ∀ j, (s'.inode j).inum = (s.inode j).inum ∧ (s'.inode j).d = (s.inode j).d

theorem SameFields.refl (s : State) : SameFields s s := ⟨rfl, rfl, rfl, fun _ => ⟨rfl, rfl⟩⟩

theorem SameFields.of_inode (hninodes : s'.ninodes = s.ninodes) (hdinode : s'.dinode = s.dinode)
    (hdata : s'.data = s.data) (hinode : s'.inode = s.inode) : SameFields s s' :=
  ⟨hninodes, hdinode, hdata, fun j => by rw [hinode]; exact ⟨rfl, rfl⟩⟩

theorem SameFields.setRef (s : State) (i : Fin NINODE) (r : ℕ) :
    SameFields s (s.setInode i { s.inode i with ref := r }) :=
  ⟨rfl, rfl, rfl, fun j => by rw [setRef_inode]; exact ⟨rfl, rfl⟩⟩

theorem SameFields.idup (s : State) (i : Fin NINODE) : SameFields s (idup s i) :=
  ⟨rfl, rfl, rfl, fun j => by rw [idup_inode]; exact ⟨rfl, rfl⟩⟩

theorem SameFields.setLock (s : State) (i : Fin NINODE) (o : Option (Fin NPROC)) (v : Bool) :
    SameFields s (s.setLock i o v) :=
  ⟨rfl, rfl, rfl, fun j => by rw [setLock_inode]; exact ⟨rfl, rfl⟩⟩

theorem tree_forget (ht : TreeInv birth clock s Ls) (hs : SameFields s s')
    (hf : TreeForget (Ls p) L') : TreeInv birth clock s' (update Ls p L') := by
  apply TreeKept.treeInv _ ht
  refine ⟨hs.ninodes, hs.dinode, hs.data, fun j hj => ?_, fun _ j _ => hs.inode j, hf.facts ht⟩
  rwa [(hs.inode j).1]

theorem TreeForget.dropRef {L : Loc} {stage : Option (Fin NINODE × Stage)}
    {cwd : Option (Fin NINODE)} (hl : i ∈ L.locks → i ∈ L.refs.erase i) :
    TreeForget L { L.dropRef i with stage := stage, cwd := cwd } := by
  refine fun j _ _ hφ => ⟨hφ.1, fun hj ht => ⟨hj, ht, ?_⟩⟩
  by_cases hji : j = i
  · rw [hji] at hj
    exact .inl (hl hj)
  · exact .inr ⟨fun _ h' => hji (Fact.type.inj h').1, fun _ => Fact.noConfusion,
      fun _ => Fact.noConfusion⟩

theorem TreeForget.closes (L : Loc) (f : Fin NFILE) (is : List (Fin NINODE)) :
    TreeForget L (L.closes f is) :=
  fun _ _ _ hφ => ⟨hφ.1.1, fun hl ht => ⟨hl, ⟨ht, fun _ _ _ => Fact.noConfusion⟩, Fact.noConfusion⟩⟩

theorem TreeForget.takes (L : Loc) (fd : Fin NOFILE) (gone : Option (Fin NOFILE)) :
    TreeForget L (L.takes fd gone) :=
  fun _ _ _ hφ => ⟨hφ.1, fun hl ht => ⟨hl, ht, fun _ _ _ => Fact.noConfusion⟩⟩

theorem TreeForget.got (L : Loc) (new : Bool) (i : Fin NINODE) (n : ℕ) :
    TreeForget L (L.got new i n) := by
  intro j φ ha hφ
  rw [Loc.got_locks, Loc.got_type]
  refine ⟨?_, And.intro⟩
  cases ha <;> cases new <;> simpa [Loc.got, Loc.learn, Loc.addNew, Loc.addRef] using hφ

theorem TreeForget.insert {L : Loc} {φ : Fact} (hφ : ∀ j, ¬ φ.About j) (hlocks : L'.locks = L.locks)
    (hknow : ∀ ψ ∈ L'.know, ψ = φ ∨ ψ ∈ L.know)
    (htype : ∀ j, Fact.type j T_DIR ∈ L.know → Fact.type j T_DIR ∈ L'.know) : TreeForget L L' := by
  intro j ψ ha hψ
  rw [hlocks]
  refine ⟨?_, fun hl htj => ⟨hl, htype j htj⟩⟩
  rcases hknow ψ hψ with rfl | hold
  · exact absurd ha (hφ j)
  · exact hold

section Locks
variable (h : Inv md s Ls) (ht : TreeInv birth clock s Ls)
include h ht

omit h in
theorem tree_learn {φ : Fact} (hφ : Seen s (Ls p) φ) :
    TreeInv birth clock s (update Ls p ((Ls p).learn φ)) := by
  apply TreeKept.treeInv _ ht
  refine ⟨rfl, rfl, rfl, fun _ => id, fun _ _ _ => ⟨rfl, rfl⟩, fun j ψ ha hψ => ?_⟩
  rcases Set.mem_insert_iff.mp hψ with rfl | hψ
  · cases ha with
    | named off n => exact ⟨⟨hφ.1, Set.mem_insert_of_mem _ hφ.2.1⟩, .inr hφ⟩
    | newborn n t => exact hφ.elim
  · obtain ⟨hl, htj⟩ := (ht.proc p).known ha hψ
    exact ⟨⟨hl, Set.mem_insert_of_mem _ htj⟩, .inl hψ⟩

theorem tree_recycle (new : Bool) (hr : (s.inode i).ref = 0) (hn : n < 2^16) :
    TreeInv birth clock (s.recycle i n) (update Ls p ((Ls p).got new i n)) := by
  apply TreeKept.treeInv _ ht
  refine ⟨rfl, rfl, rfl, fun j hj => ?_, fun q j hj => ?_, (TreeForget.got _ new i n).facts ht⟩
  · rw [setInode_inode]
    split_ifs
    · exact hn
    · exact hj
  · have hne : j ≠ i := by
      rintro rfl
      have hpos := h.locked_pos hj.1
      omega
    rw [setInode_inode, if_neg hne]
    exact ⟨rfl, rfl⟩

theorem tree_load (p : Fin NPROC) (hv : (s.inode i).valid = false) :
    TreeInv birth clock (s.fill i) Ls := by
  rw [← update_eq_self p Ls]
  apply TreeKept.treeInv _ ht
  refine ⟨rfl, rfl, rfl, fun j hj => ?_, fun q j hj => ?_, (TreeForget.same rfl rfl).facts ht⟩
  · rwa [(s.fill_fields i j).2.1]
  · have hne : j ≠ i := by
      rintro rfl
      rw [((h.table.proc q).typed j _ hj.2).2.1] at hv
      cases hv
    rw [State.fill, setInode_inode, if_neg hne]
    exact ⟨rfl, rfl⟩

omit h in
theorem tree_unlock :
    TreeInv birth clock (s.setInode i { s.inode i with lock := none })
      (update Ls p ((Ls p).unlocked i)) := by
  refine tree_forget ht (.setLock s i none _) fun j φ ha hφ => ⟨hφ.1, fun hl htj => ?_⟩
  have hne : j ≠ i := by
    rintro rfl
    cases ha with
    | named off n => exact hφ.2.2.1 off n rfl
    | newborn n t => exact hφ.2.2.2 n t rfl
  exact ⟨(List.mem_erase_of_ne hne).mpr hl, htj, .inr fun _ h' => hne (Fact.type.inj h').1,
    fun _ _ => Fact.noConfusion, fun _ _ => Fact.noConfusion⟩

theorem tree_putLast (hl : (s.inode i).lock = none) :
    TreeInv birth clock (s.setInode i { s.inode i with lock := some p })
      (update Ls p ((Ls p).starts i)) := by
  refine tree_forget ht (.setLock s i (some p) _) fun j φ _ hφ => ⟨hφ.1, fun hj htj => ?_⟩
  have hne : j ≠ i := by
    rintro rfl
    exact not_locks h hl hj
  exact ⟨List.mem_cons_of_mem _ hj, htj, .inr ⟨fun _ h' => hne (Fact.type.inj h').1,
    fun _ => Fact.noConfusion, fun _ => Fact.noConfusion⟩⟩

theorem tree_invalidate (hs : (Ls p).stage = some (i, .freed)) :
    TreeInv birth clock (s.invalidate i) (update Ls p ((Ls p).finishes i)) := by
  refine tree_forget ht (.setLock s i none false) fun j φ _ hφ => ⟨hφ, fun hj htj => ?_⟩
  have hne : j ≠ i := by
    rintro rfl
    exact ((h.table.proc p).typed j _ htj).2.2.2 (.freed hs)
  exact ⟨(List.mem_erase_of_ne hne).mpr hj, htj⟩

end Locks

theorem TreeInv.effect {Ls' : Locs} (ho : md.ordered) (h : Inv md s Ls)
    (ht : TreeInv birth clock s Ls) (he : Effect md p s Ls s' Ls') :
    ∃ birth' clock', TreeInv birth' clock' s' Ls' := by
  have hforget {s' : State} {L' : Loc} (hs : SameFields s s') (hf : TreeForget (Ls p) L') :
      ∃ birth' clock', TreeInv birth' clock' s' (update Ls p L') :=
    ⟨birth, clock, tree_forget ht hs hf⟩
  cases he with
  | forget K hK => exact hforget (.refl s) (.forgets hK)
  | learn φ _ hφ => exact ⟨birth, clock, tree_learn ht hφ⟩
  | loaded i =>
    exact hforget (.refl s) (.insert (by rintro _ ⟨⟩) rfl
      (fun _ => Or.imp_right And.left) fun _ htj => .inr ⟨htj, fun _ => Fact.noConfusion⟩)
  | hold new i n => exact hforget (.idup s i) (.got _ new i n)
  | recycle new i n _ hr _ hsmall => exact ⟨birth, clock, tree_recycle h ht new hr (hsmall ho)⟩
  | acquire i =>
    exact hforget (.setLock s i (some p) _)
      fun _ _ _ hφ => ⟨hφ, fun hj htj => ⟨List.mem_cons_of_mem _ hj, htj⟩⟩
  | load i _ _ hv =>
    rw [update_eq_self]
    exact ⟨birth, clock, tree_load h ht p hv⟩
  | unlock i => exact ⟨birth, clock, tree_unlock ht⟩
  | putMore i _ _ _ hl => exact hforget (.setRef s i _) (.dropRef hl)
  | putLast i _ _ _ _ _ _ hl => exact ⟨birth, clock, tree_putLast h ht hl⟩
  | store i d data K hl _ hkn htype hK hdir =>
    exact ⟨birth, clock, tree_store h ht hl hkn htype hK (hdir ho)⟩
  | trunc i _ hs =>
    have hstage := (h.table.proc p).stage i .freeing hs
    refine ⟨birth, clock, tree_freeing h ht (updated_store s i _ _) rfl ?_ hs Stage.noConfusion
      (fun _ => rfl) (fun h' => h') ?_⟩
    · intro m hm
      exact update_of_ne hm _ _
    · exact (freeing_agrees h hs (.inl rfl)).1
  | free i _ hs =>
    refine ⟨birth, clock, tree_freeing h ht (updated_iupdate s i _) rfl (fun _ _ => rfl) hs
      Stage.noConfusion ?_ ?_ (freeing_agrees h hs (.inr rfl)).1⟩
    · intro h'
      cases h'
    · intro h'
      cases h'
  | invalidate i _ hs => exact ⟨birth, clock, tree_invalidate h ht hs⟩
  | drop i _ hs =>
    have hnolock := ((h.table.proc p).stage i .dropping hs).2.2.1 rfl
    exact hforget (.setRef s i _) (.dropRef fun hl => absurd hl hnolock)
  | ialloc dp n t _ hn _ hdir => exact ⟨_, _, tree_ialloc h ht dp hn (hdir ho)⟩
  | seek | fdalloc | clearFd | dupFd => exact hforget (.of_inode rfl rfl rfl rfl) (.same rfl rfl)
  | filealloc f =>
    exact hforget (.of_inode rfl rfl rfl rfl) (.insert (by rintro _ ⟨⟩) rfl
      (fun _ => id) fun _ => Set.mem_insert_of_mem _)
  | openFile f i fl =>
    exact hforget (.of_inode rfl rfl rfl rfl) (.insert (by rintro _ ⟨⟩) rfl
      (fun _ => Or.imp_right And.left)
      fun _ htj => .inr ⟨htj, Fact.noConfusion, fun _ => Fact.noConfusion⟩)
  | dropFile f | dropLast f => exact hforget (.of_inode rfl rfl rfl rfl) (.closes _ f _)
  | takeFd fd => exact hforget (.of_inode rfl rfl rfl rfl) (.takes _ fd _)
  | exitFd fd => exact hforget (.refl s) (.takes _ fd _)
  | takeCwd i => exact hforget (.refl s) (.same rfl rfl)
  | setCwd i _ _ _ _ hl =>
    exact hforget (.of_inode rfl rfl rfl rfl) (.dropRef fun hl' => absurd hl' hl)
  | exit _ _ _ hl => exact hforget (.of_inode rfl rfl rfl rfl) fun _ _ _ hφ => hφ.elim
  | born i =>
    exact hforget ⟨rfl, rfl, rfl, (SameFields.idup s i).inode⟩ (.same rfl rfl)

end Xv6.Inodes
