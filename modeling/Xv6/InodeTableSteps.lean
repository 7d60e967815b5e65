import Xv6.InodeTableRefs

/-! Effects on locks and on the fields of locked inodes, and all effects together. -/
namespace Xv6.Inodes

open Interleaving Function

variable {md : Mode} {p q : Fin NPROC} {s s' : State} {Ls : Locs} {L' : Loc} {i j : Fin NINODE}

/-! ## Effects on locks -/

/-- New values for lock and valid flag of entry `i`. -/
def State.setLock (s : State) (i : Fin NINODE) (o : Option (Fin NPROC)) (v : Bool) : State :=
  s.setInode i { s.inode i with lock := o, valid := v }

theorem setLock_inode (s : State) (i j : Fin NINODE) (o : Option (Fin NPROC)) (v : Bool) :
    (s.setLock i o v).inode j =
      { s.inode j with lock := if j = i then o else (s.inode j).lock,
                       valid := if j = i then v else (s.inode j).valid } := by
  unfold State.setLock
  rw [setInode_inode]
  split_ifs with h
  · rw [h]
  · rfl

theorem not_freed (hf : ∀ q, (update Ls p L' q).stage ≠ some (i, .freed))
    (hfreed : (Ls p).stage = some (i, .freed) → L'.stage = some (i, .freed)) (q : Fin NPROC) :
    (Ls q).stage ≠ some (i, .freed) := by
  intro hq
  apply hf q
  by_cases hqp : q = p
  · subst hqp
    rw [update_self]
    exact hfreed hq
  · rwa [update_of_ne hqp]

section Locks
variable (h : Inv md s Ls) {o : Option (Fin NPROC)} {v : Bool}
include h

theorem Quiet.setLock (hold : ∀ q, (s.inode i).lock = some q → q = p) (hnew : ∀ q, o = some q → q = p)
    (htyped : ∀ q, q ≠ p → ∀ j t, Fact.type j t ∈ (Ls q).know →
      (j = i → v = true) ∧ ¬ Busy (update Ls p L') j) :
    Quiet p s Ls (s.setLock i o v) L' := by
  constructor
  · exact fun _ _ => rfl
  · intro j _
    rw [setLock_inode]
  · intro q hq j
    rw [setLock_inode]
    split_ifs with hj
    · rw [hj]
      exact ⟨fun h' => absurd (hnew q h') hq, fun h' => absurd (hold q h') hq⟩
    · exact Iff.rfl
  · intro q hq j hj
    have hne : j ≠ i := by
      rintro rfl
      exact hq (hold q hj)
    rw [setLock_inode]
    simp [hne]
  · intro q hq j t ht
    obtain ⟨hv, hb⟩ := htyped q hq j t ht
    have hvalid := ((h.table.proc q).typed j t ht).2.1
    rw [setLock_inode]
    refine ⟨?_, rfl, hb⟩
    split_ifs with hj
    · exact hv hj
    · exact hvalid

theorem Quiet.relock (hold : ∀ q, (s.inode i).lock = some q → q = p) (hnew : ∀ q, o = some q → q = p)
    (hstage : SameStage (Ls p) L') : Quiet p s Ls (s.setLock i o (s.inode i).valid) L' := by
  refine .setLock h hold hnew fun q _ j t ht => ?_
  obtain ⟨-, hv, -, hb⟩ := (h.table.proc q).typed j t ht
  rw [hstage.busy]
  exact ⟨fun hj => hj ▸ hv, hb⟩

theorem table_setLock (hholds : ∀ j, L'.holds j = (Ls p).holds j)
    (hv : v = true → (s.inode i).valid = true)
    (hfreed : ∀ j, (Ls p).stage = some (j, .freed) → L'.stage = some (j, .freed) ∨ j = i ∧ v = false)
    (hquiet : Quiet p s Ls (s.setLock i o v) L')
    (hown : TableLoc (s.setLock i o v) (update Ls p L') p) :
    TableInv (s.setLock i o v) (update Ls p L') := by
  constructor
  · refine h.table.counted_of ?_ ?_
    · rfl
    intro j
    rw [setLock_inode, hholds]
  · intro j k hj hk hjk
    rw [setLock_inode] at hj hk hjk
    rw [setLock_inode] at hjk
    exact h.table.unique j k hj hk hjk
  · intro j hr hvalid hf
    rw [setLock_inode] at hr hvalid ⊢
    dsimp only at hr hvalid ⊢
    have hvj : (s.inode j).valid = true := by
      split_ifs at hvalid with hji
      · rw [hji]
        exact hv hvalid
      · exact hvalid
    apply h.table.agrees j hr hvj (not_freed hf fun hq => ?_)
    rcases hfreed j hq with hstill | ⟨rfl, hv'⟩
    · exact hstill
    · rw [if_pos rfl, hv'] at hvalid
      cases hvalid
  · exact hquiet.procs h.table hown

theorem not_locks (hl : (s.inode i).lock = none) : i ∉ (Ls p).locks := by
  intro hi
  rw [((h.table.proc p).locked i).mp hi] at hl
  cases hl

theorem table_acquire (ha : (Ls p).alive = true) (hs : (Ls p).stage = none)
    (hb : (Ls p).Backs i) (hl : (s.inode i).lock = none) :
    TableInv (s.setInode i { s.inode i with lock := some p })
      (update Ls p { Ls p with locks := i :: (Ls p).locks }) := by
  have hold := h.table.proc p
  have hbusy (j : Fin NINODE) :
      Busy (update Ls p { Ls p with locks := i :: (Ls p).locks }) j ↔ Busy Ls j :=
    SameStage.busy (.of_eq rfl)
  refine table_setLock h ?_ ?_ ?_ ?_ ?_
  · exact fun _ => rfl
  · exact fun hv => hv
  · exact fun _ hf => .inl hf
  · refine .relock h (fun q hq => ?_) (fun q heq => (Option.some.inj heq).symm) (.of_eq rfl)
    rw [hl] at hq
    cases hq
  · constructor
    all_goals rw [update_self]
    · intro j
      rw [setLock_inode]
      split_ifs with hj
      · simp [hj]
      · rw [← hold.locked j]
        simp [hj]
    · intro j hj
      rcases List.mem_cons.mp hj with rfl | hj
      · exact hb
      · exact hold.backed j hj
    · exact List.nodup_cons.mpr ⟨not_locks h hl, hold.nodup⟩
    · exact fun _ _ hst => Loc.no_stage hs hst
    · intro j t ht
      obtain ⟨hheld, hv, htype, hb'⟩ := hold.typed j t ht
      rw [setLock_inode, hbusy]
      refine ⟨hheld.imp_right (List.mem_cons_of_mem i), ?_, htype, hb'⟩
      split_ifs with hj
      · rw [← hj]
        exact hv
      · exact hv
    · intro j n hn
      rw [setLock_inode]
      exact hold.num j n hn
    · exact hold.cwd
    · exact hold.alive
    · exact not_dead ha
    · exact fun _ _ hst => Loc.no_stage hs hst

theorem table_unlock (ha : (Ls p).alive = true) (hi : i ∈ (Ls p).locks) (hs : (Ls p).stage = none) :
    TableInv (s.setInode i { s.inode i with lock := none }) (update Ls p ((Ls p).unlocked i)) := by
  have hold := h.table.proc p
  have hlock := (hold.locked i).mp hi
  have hbusy (j : Fin NINODE) : Busy (update Ls p ((Ls p).unlocked i)) j ↔ Busy Ls j :=
    SameStage.busy (.of_eq rfl)
  refine table_setLock h ?_ ?_ ?_ ?_ ?_
  · exact fun _ => rfl
  · exact fun hv => hv
  · exact fun _ hf => .inl hf
  · refine .relock h (fun q heq => ?_) (fun _ heq => by cases heq) (.of_eq rfl)
    rw [hlock] at heq
    exact (Option.some.inj heq).symm
  · constructor
    all_goals rw [update_self]
    · intro j
      change j ∈ (Ls p).locks.erase i ↔ _
      rw [hold.nodup.mem_erase_iff, setLock_inode]
      split_ifs with hj
      · simp [hj]
      · simp [hj, hold.locked j]
    · intro j hj
      rcases hold.backed j (List.mem_of_mem_erase hj) with hr | ⟨f, w, hf⟩
      · exact .inl hr
      · exact .inr ⟨f, w, hf, .inr fun _ => Fact.noConfusion,
          fun _ _ => Fact.noConfusion, fun _ _ => Fact.noConfusion⟩
    · exact hold.nodup.erase i
    · exact fun _ _ hst => Loc.no_stage hs hst
    · intro j t ht
      obtain ⟨hheld, hv, htype, hb'⟩ := hold.typed j t ht.1
      rw [setLock_inode, hbusy]
      refine ⟨?_, ?_, htype, hb'⟩
      · by_cases hj : j = i
        · subst hj
          rcases ht.2.1 with hr | hne
          · exact .inl hr
          · exact absurd rfl (hne t)
        · exact hheld.imp_right fun hl => (List.mem_erase_of_ne hj).mpr hl
      · split_ifs with hj
        · rw [← hj]
          exact hv
        · exact hv
    · intro j n hn
      rw [setLock_inode]
      exact hold.num j n hn.1
    · exact hold.cwd
    · exact hold.alive
    · exact not_dead ha
    · exact fun _ _ hst => Loc.no_stage hs hst

theorem holds_le (j : Fin NINODE) : (Ls p).holds j ≤ (s.inode j).ref := by
  rw [h.table.counted]
  exact le_total (·.holds j) s Ls j p

theorem not_mem_erase (href : (s.inode i).ref = 1) :
    i ∉ (Ls p).refs.erase i := by
  intro hmem
  have hle := holds_le h (p := p) i
  have hcount' := List.count_pos_iff.mpr hmem
  rw [List.count_erase_self] at hcount'
  unfold Loc.holds at hle
  omega

theorem table_putLast (ha : (Ls p).alive = true) (hi : i ∈ (Ls p).refs)
    (hs : (Ls p).stage = none) (href : (s.inode i).ref = 1) (hv : (s.inode i).valid = true)
    (hlink : (s.inode i).d.nlink = 0) (hl : (s.inode i).lock = none) :
    TableInv (s.setInode i { s.inode i with lock := some p }) (update Ls p ((Ls p).starts i)) := by
  have hold := h.table.proc p
  have hlast := not_mem_erase h (p := p) href
  -- the only inode that is now being freed and was not before is `i`
  have hbusy (j : Fin NINODE) (hj : j ≠ i) : Busy (update Ls p ((Ls p).starts i)) j → Busy Ls j := by
    intro hb
    rcases busy_cases hb with hold' | ⟨st, hst, -⟩
    · exact hold'
    · injection hst with hst
      exact absurd (congrArg Prod.fst hst).symm hj
  refine table_setLock h ?_ ?_ ?_ ?_ ?_
  · exact fun _ => rfl
  · exact fun hv => hv
  · intro j hf
    rw [hs] at hf
    cases hf
  · apply Quiet.setLock h
    · intro q hq
      rw [hl] at hq
      cases hq
    · exact fun q heq => (Option.some.inj heq).symm
    · intro q hq j t ht
      obtain ⟨hheld, -, -, hb⟩ := (h.table.proc q).typed j t ht
      refine ⟨fun _ => hv, fun h' => hb (hbusy j ?_ h')⟩
      -- another process that knows the type of `i` would have a reference, too
      rintro rfl
      have hbacks : (Ls q).Backs j := by
        rcases hheld with hr | hlock
        · exact .inl hr
        · exact (h.table.proc q).backed j hlock
      have htwo := h.backs_two (Ne.symm hq) hi hbacks
      omega
  · constructor
    all_goals rw [update_self]
    · intro j
      rw [setLock_inode]
      split_ifs with hj
      · simp [hj]
      · rw [← hold.locked j]
        simp [hj]
    · intro j hj
      rcases List.mem_cons.mp hj with rfl | hj
      · exact .inl hi
      · rcases hold.backed j hj with hr | ⟨f, w, hf⟩
        · exact .inl hr
        · exact .inr ⟨f, w, hf, .inr ⟨fun _ => Fact.noConfusion,
            fun _ => Fact.noConfusion, fun _ => Fact.noConfusion⟩⟩
    · exact List.nodup_cons.mpr ⟨not_locks h hl, hold.nodup⟩
    · intro j st hst
      injection hst with hst
      injection hst with hj hst
      subst hj hst
      rw [setLock_inode]
      refine ⟨hi, fun _ => ⟨List.mem_cons_self, ?_⟩, Stage.noConfusion, fun _ => hlink⟩
      dsimp only
      rw [if_pos rfl]
      exact hv
    · intro j t ht
      obtain ⟨hheld, hv', htype, hb⟩ := hold.typed j t ht.1
      have hj : j ≠ i := by
        rintro rfl
        rcases ht.2 with hmem | ⟨hne, -⟩
        · exact hlast hmem
        · exact hne t rfl
      rw [setLock_inode]
      refine ⟨hheld.imp_right (List.mem_cons_of_mem i), ?_, htype, fun h' => hb (hbusy j hj h')⟩
      dsimp only
      rw [if_neg hj]
      exact hv'
    · intro j n hn
      rw [setLock_inode]
      exact hold.num j n hn.1
    · exact hold.cwd
    · exact hold.alive
    · exact not_dead ha
    · intro j st hst t ht
      injection hst with hst
      injection hst with hj _
      subst hj
      rcases ht.2 with hmem | ⟨hne, -⟩
      · exact hlast hmem
      · exact hne t rfl

theorem table_invalidate (ha : (Ls p).alive = true) (hs : (Ls p).stage = some (i, .freed)) :
    TableInv (s.invalidate i) (update Ls p ((Ls p).finishes i)) := by
  have hold := h.table.proc p
  obtain ⟨hi, hlocked, -, -⟩ := hold.stage i .freed hs
  have hlock := (hold.locked i).mp (hlocked Stage.noConfusion).1
  have hbusy (j : Fin NINODE) : Busy (update Ls p ((Ls p).finishes i)) j → Busy Ls j := by
    intro hb
    rcases busy_cases hb with hold' | ⟨st, hst, hne⟩
    · exact hold'
    · injection hst with hst
      exact absurd (congrArg Prod.snd hst).symm hne
  -- nobody knows the type of an inode that is being freed
  have hne {q : Fin NPROC} {j : Fin NINODE} {t : ℕ} (ht : Fact.type j t ∈ (Ls q).know) :
      j ≠ i := by
    rintro rfl
    exact ((h.table.proc q).typed j t ht).2.2.2 (.freed hs)
  refine table_setLock h ?_ ?_ ?_ ?_ ?_
  · exact fun _ => rfl
  · exact Bool.noConfusion
  · intro j hf
    rw [hs] at hf
    injection hf with hf
    exact .inr ⟨(congrArg Prod.fst hf).symm, rfl⟩
  · apply Quiet.setLock h
    · intro q heq
      rw [hlock] at heq
      exact (Option.some.inj heq).symm
    · exact fun _ heq => by cases heq
    · intro q _ j t ht
      exact ⟨fun hj => absurd hj (hne ht),
        fun h' => ((h.table.proc q).typed j t ht).2.2.2 (hbusy j h')⟩
  · constructor
    all_goals rw [update_self]
    · intro j
      rw [hold.nodup.mem_erase_iff, setLock_inode]
      split_ifs with hj
      · simp [hj]
      · simp [hj, hold.locked j]
    · intro j hj
      exact hold.backed j (List.mem_of_mem_erase hj)
    · exact hold.nodup.erase i
    · intro j st hst
      injection hst with hst
      injection hst with hj hst
      subst hj hst
      exact ⟨hi, absurd rfl, fun _ => hold.nodup.not_mem_erase,
        fun h' => h'.elim Stage.noConfusion Stage.noConfusion⟩
    · intro j t ht
      obtain ⟨hheld, hv, htype, hb⟩ := hold.typed j t ht
      have hj := hne ht
      rw [setLock_inode]
      refine ⟨hheld.imp_right fun hl => (List.mem_erase_of_ne hj).mpr hl, ?_, htype,
        fun h' => hb (hbusy j h')⟩
      dsimp only
      rw [if_neg hj]
      exact hv
    · intro j n hn
      rw [setLock_inode]
      exact hold.num j n hn
    · exact hold.cwd
    · exact hold.alive
    · exact not_dead ha
    · intro j st hst t ht
      injection hst with hst
      exact hne ht (congrArg Prod.fst hst).symm

end Locks

/-! ## Effects on the fields of a locked inode -/

/-- Entry `i` and its inode on the disk get the fields `d`. -/
structure Updated (s : State) (i : Fin NINODE) (d : Dnode) (s' : State) : Prop where
  inode : ∀ j, s'.inode j = { s.inode j with d := if j = i then d else (s.inode j).d }
  dinode : ∀ n, s'.dinode n = if n = (s.inode i).inum then d else s.dinode n
  file : s'.file = s.file
  proc : s'.proc = s.proc

theorem updated_store (s : State) (i : Fin NINODE) (d : Dnode) (data : ℕ → UInt8) :
    Updated s i d ((s.setData (s.inode i).inum data).iupdate i d) :=
  ⟨fun j => iupdate_inode (s.setData (s.inode i).inum data) i j d,
    (iupdate_dinode (s.setData (s.inode i).inum data) i d), rfl, rfl⟩

theorem updated_iupdate (s : State) (i : Fin NINODE) (d : Dnode) : Updated s i d (s.iupdate i d) :=
  ⟨fun j => iupdate_inode s i j d, iupdate_dinode s i d, rfl, rfl⟩

/-- Entry `i` gets the fields on the disk. -/
def State.fill (s : State) (i : Fin NINODE) : State :=
  s.setInode i { s.inode i with d := s.dinode (s.inode i).inum, valid := true }

theorem State.fill_fields (s : State) (i j : Fin NINODE) :
    ((s.fill i).inode j).ref = (s.inode j).ref ∧ ((s.fill i).inode j).inum = (s.inode j).inum ∧
      ((s.fill i).inode j).lock = (s.inode j).lock := by
  rw [State.fill, setInode_inode]
  split_ifs with hj
  · rw [hj]
    exact ⟨rfl, rfl, rfl⟩
  · exact ⟨rfl, rfl, rfl⟩

variable {d : Dnode}

section Fields
variable (h : Inv md s Ls)
include h

theorem Quiet.updated (hu : Updated s i d s') (hi : i ∈ (Ls p).locks)
    (htype : (∃ q, q ≠ p ∧ ∃ t, Fact.type i t ∈ (Ls q).know) → d.type = (s.inode i).d.type)
    (hbusy : ∀ j, ¬ Busy Ls j → ¬ Busy (update Ls p L') j) : Quiet p s Ls s' L' := by
  have hlock := ((h.table.proc p).locked i).mp hi
  constructor
  · intro q _
    rw [hu.proc]
  · intro j _
    rw [hu.inode]
  · intro q _ j
    rw [hu.inode]
  · intro q hq j hj
    have hne : j ≠ i := by
      rintro rfl
      rw [hlock] at hj
      exact hq (Option.some.inj hj).symm
    rw [hu.inode]
    simp [hne]
  · intro q hq j t ht
    obtain ⟨-, hv, -, hb⟩ := (h.table.proc q).typed j t ht
    rw [hu.inode]
    refine ⟨hv, ?_, hbusy j hb⟩
    split_ifs with hj
    · subst hj
      exact htype ⟨q, hq, t, ht⟩
    · rfl

theorem table_updated (hu : Updated s i d s') (hi : i ∈ (Ls p).locks)
    (hholds : ∀ j, L'.holds j = (Ls p).holds j)
    (htype : d.type ≠ 0 ∨ L'.stage = some (i, .freed))
    (hfreed : ∀ j, (Ls p).stage = some (j, .freed) → L'.stage = some (j, .freed))
    (hquiet : Quiet p s Ls s' L') (hown : TableLoc s' (update Ls p L') p) :
    TableInv s' (update Ls p L') := by
  constructor
  · refine h.table.counted_of hu.file ?_
    intro j
    rw [hu.inode, hholds]
  · intro j k hj hk hjk
    rw [hu.inode] at hj hk hjk
    rw [hu.inode] at hjk
    exact h.table.unique j k hj hk hjk
  · intro j hr hv hf
    rw [hu.inode] at hr hv ⊢
    rw [hu.dinode]
    by_cases hj : j = i
    · subst hj
      simp only [if_true]
      refine ⟨trivial, ?_⟩
      rcases htype with hne | hfr
      · exact hne
      · exact absurd (by rw [update_self]; exact hfr) (hf p)
    · rw [if_neg hj, if_neg (h.table.inum_ne hr (h.locked_pos hi) hj)]
      exact h.table.agrees j hr hv (not_freed hf (hfreed j))
  · exact hquiet.procs h.table hown

theorem table_store {data : ℕ → UInt8} {K : Set Fact} (hi : i ∈ (Ls p).locks)
    (hs : (Ls p).stage = none) (ht : ∃ t, Fact.type i t ∈ (Ls p).know)
    (htype : d.type = (s.inode i).d.type) (hK : (Ls p).Forgets K) :
    TableInv ((s.setData (s.inode i).inum data).iupdate i d)
      (update Ls p { Ls p with know := K }) := by
  have hu := updated_store s i d data
  have hold := h.table.proc p
  have hne : d.type ≠ 0 := by
    obtain ⟨t, ht⟩ := ht
    obtain ⟨-, heq, hne⟩ := h.typed_disk ht
    rw [htype, heq]
    exact hne
  have hbusy (j : Fin NINODE) :
      Busy (update Ls p { Ls p with know := K }) j ↔ Busy Ls j :=
    SameStage.busy (.of_eq rfl)
  refine table_updated h hu hi ?_ (.inl hne) ?_ ?_ ?_
  · exact fun _ => rfl
  · exact fun _ hf => hf
  · apply Quiet.updated h hu hi (fun _ => htype)
    intro j hb
    rw [hbusy]
    exact hb
  · constructor
    all_goals rw [update_self]
    · intro j
      rw [hu.inode]
      exact hold.locked j
    · intro j hj
      rcases hold.backed j hj with hr | ⟨f, w, hf⟩
      · exact .inl hr
      · exact .inr ⟨f, w, hK.opened.mpr hf⟩
    · exact hold.nodup
    · exact fun _ _ hst => Loc.no_stage hs hst
    · intro j t ht'
      obtain ⟨hheld, hv, htype', hb⟩ := hold.typed j t (hK.subset ht')
      rw [hu.inode, hbusy]
      refine ⟨hheld, hv, ?_, hb⟩
      split_ifs with hj
      · rw [htype, ← hj]
        exact htype'
      · exact htype'
    · intro j n hn
      rw [hu.inode]
      exact hold.num j n (hK.subset hn)
    · exact hold.cwd
    · exact hold.alive
    · intro hd
      rw [(hold.dead hd).2.1] at hi
      cases hi
    · exact fun _ _ hst => Loc.no_stage hs hst

/-- The steps of an `iput` between its check and the end of its changes to the disk. -/
theorem table_freeing {st st' : Stage} (hu : Updated s i d s')
    (ha : (Ls p).alive = true) (hs : (Ls p).stage = some (i, st)) (hst : st ≠ .dropping)
    (hst' : st' ≠ .dropping) (hfree : st ≠ .freed) (htype : d.type ≠ 0 ∨ st' = .freed)
    (hlink : st' = .freeing ∨ st' = .trunced → d.nlink = 0) :
    TableInv s' (update Ls p { Ls p with stage := some (i, st') }) := by
  have hold := h.table.proc p
  obtain ⟨hr, hlocked, -, -⟩ := hold.stage i st hs
  obtain ⟨hi, hvalid⟩ := hlocked hst
  have hbusy (j : Fin NINODE) (hb : ¬ Busy Ls j) :
      ¬ Busy (update Ls p { Ls p with stage := some (i, st') }) j := by
    intro hb'
    apply hb
    rcases busy_cases hb' with hold' | ⟨u, hu', -⟩
    · exact hold'
    · injection hu' with hu'
      injection hu' with hj _
      rw [← hj]
      exact ⟨p, st, hs, hst⟩
  -- nobody knows the type of an inode that is being freed
  have hne {q : Fin NPROC} {j : Fin NINODE} {t : ℕ} (ht : Fact.type j t ∈ (Ls q).know) :
      j ≠ i := by
    rintro rfl
    exact ((h.table.proc q).typed j t ht).2.2.2 ⟨p, st, hs, hst⟩
  refine table_updated h hu hi ?_ ?_ ?_ ?_ ?_
  · exact fun _ => rfl
  · exact htype.imp_right fun heq => by rw [heq]
  · intro j hf
    rw [hs] at hf
    injection hf with hf
    exact absurd (congrArg Prod.snd hf) hfree
  · apply Quiet.updated h hu hi _ hbusy
    rintro ⟨q, -, t, ht⟩
    exact absurd rfl (hne ht)
  · constructor
    all_goals rw [update_self]
    · intro j
      rw [hu.inode]
      exact hold.locked j
    · exact hold.backed
    · exact hold.nodup
    · intro j u hst''
      injection hst'' with hst''
      injection hst'' with hj hu'
      subst hj hu'
      rw [hu.inode]
      refine ⟨hr, fun _ => ⟨hi, hvalid⟩, fun h' => absurd h' hst', ?_⟩
      intro h'
      rw [if_pos rfl]
      exact hlink h'
    · intro j t ht
      obtain ⟨hheld, hv, htype', hb⟩ := hold.typed j t ht
      rw [hu.inode]
      refine ⟨hheld, hv, ?_, hbusy j hb⟩
      rw [if_neg (hne ht)]
      exact htype'
    · intro j n hn
      rw [hu.inode]
      exact hold.num j n hn
    · rw [hu.proc]
      exact hold.cwd
    · rw [hu.proc]
      exact hold.alive
    · exact not_dead ha
    · intro j u hst'' t ht
      injection hst'' with hst''
      exact hne ht (congrArg Prod.fst hst'').symm

/-- Before its `ip->type = 0`, an `iput` that frees has the inode as it is on the disk. -/
theorem freeing_agrees {st : Stage} (hs : (Ls p).stage = some (i, st))
    (hst : st = .freeing ∨ st = .trunced) :
    (s.inode i).d = s.dinode (s.inode i).inum ∧ (s.inode i).d.type ≠ 0 := by
  have hne : st ≠ .dropping := by
    rcases hst with rfl | rfl <;> exact Stage.noConfusion
  obtain ⟨hr, hlocked, -, -⟩ := (h.table.proc p).stage i st hs
  obtain ⟨hi, hv⟩ := hlocked hne
  apply h.table.agrees i (h.table.ref_pos hr) hv
  -- only the holder of the lock could have freed it
  intro q hq
  have hlock := ((h.table.proc q).stage i .freed hq).2.1 Stage.noConfusion
  have hq' := ((h.table.proc q).locked i).mp hlock.1
  rw [((h.table.proc p).locked i).mp hi] at hq'
  injection hq' with hq'
  rw [← hq', hs] at hq
  injection hq with hq
  injection hq with _ hq
  subst hq
  rcases hst with h' | h' <;> cases h'

theorem table_trunc (ha : (Ls p).alive = true) (hs : (Ls p).stage = some (i, .freeing)) :
    TableInv (s.itrunc i) (update Ls p { Ls p with stage := some (i, .trunced) }) := by
  have hlink := ((h.table.proc p).stage i .freeing hs).2.2.2
  apply table_freeing h (updated_store s i _ _) ha hs Stage.noConfusion Stage.noConfusion
    Stage.noConfusion
  · exact .inl (freeing_agrees h hs (.inl rfl)).2
  · exact fun _ => hlink (.inl rfl)

theorem table_free (ha : (Ls p).alive = true) (hs : (Ls p).stage = some (i, .trunced)) :
    TableInv (s.iupdate i { (s.inode i).d with type := 0 })
      (update Ls p { Ls p with stage := some (i, .freed) }) := by
  apply table_freeing h (updated_iupdate s i _) ha hs Stage.noConfusion Stage.noConfusion
    Stage.noConfusion (.inr rfl)
  intro h'
  rcases h' with h' | h'
  · cases h'
  · cases h'

theorem table_load (hi : i ∈ (Ls p).locks) (hs : (Ls p).stage = none)
    (hv : (s.inode i).valid = false) (ht : (s.dinode (s.inode i).inum).type ≠ 0) :
    TableInv (s.fill i) Ls := by
  have hsame (j : Fin NINODE) (hj : j ≠ i) : (s.fill i).inode j = s.inode j := by
    rw [State.fill, setInode_inode, if_neg hj]
  have hfields := s.fill_fields i
  -- an entry whose type somebody knows was loaded before
  have hne {q : Fin NPROC} {j : Fin NINODE} {t : ℕ} (ht' : Fact.type j t ∈ (Ls q).know) :
      j ≠ i := by
    rintro rfl
    rw [((h.table.proc q).typed j t ht').2.1] at hv
    cases hv
  constructor
  · intro j
    rw [(hfields j).1, h.table.counted]
    have hfile : (s.fill i).file = s.file := rfl
    exact (total_congr hfile).symm
  · intro j k hj hk hjk
    rw [(hfields j).1] at hj
    rw [(hfields k).1] at hk
    rw [(hfields j).2.1, (hfields k).2.1] at hjk
    exact h.table.unique j k hj hk hjk
  · intro j hr hvalid hf
    by_cases hj : j = i
    · subst hj
      rw [State.fill, setInode_inode, if_pos rfl]
      exact ⟨rfl, ht⟩
    · rw [hsame j hj] at hr hvalid ⊢
      exact h.table.agrees j hr hvalid hf
  · intro q
    have hq := h.table.proc q
    refine { hq with locked := ?_, stage := ?_, typed := ?_, num := ?_ }
    · intro j
      rw [(hfields j).2.2]
      exact hq.locked j
    · intro j st hst
      by_cases hj : j = i
      · -- the holder of the lock is `p`, and it is not freeing
        subst hj
        obtain ⟨hr, hlocked, hdropping, -⟩ := hq.stage j st hst
        have hdrop : st = .dropping := by
          by_contra hst'
          exact h.table.not_busy hi hs ⟨q, st, hst, hst'⟩
        subst hdrop
        exact ⟨hr, absurd rfl, hdropping,
          fun h' => h'.elim Stage.noConfusion Stage.noConfusion⟩
      · rw [hsame j hj]
        exact hq.stage j st hst
    · intro j t ht'
      rw [hsame j (hne ht')]
      exact hq.typed j t ht'
    · intro j n hn
      rw [(hfields j).2.1]
      exact hq.num j n hn

theorem table_loaded (ha : (Ls p).alive = true) (hi : i ∈ (Ls p).locks)
    (hs : (Ls p).stage = none) (hv : (s.inode i).valid = true) :
    TableInv s (update Ls p ((Ls p).loaded i (s.inode i).d.type)) := by
  have hold := h.table.proc p
  have hbusy (j : Fin NINODE) :
      Busy (update Ls p ((Ls p).loaded i (s.inode i).d.type)) j ↔ Busy Ls j :=
    SameStage.busy (.of_eq rfl)
  constructor
  · refine h.table.counted_of ?_ ?_
    · rfl
    intro j
    rfl
  · exact h.table.unique
  · intro j hr hvalid hf
    exact h.table.agrees j hr hvalid (not_freed hf id)
  · refine Quiet.procs ⟨fun _ _ => rfl, fun _ _ => rfl, fun _ _ _ => Iff.rfl,
      fun _ _ _ _ => ⟨rfl, rfl⟩, fun q _ j t ht => ?_⟩ h.table ?_
    · obtain ⟨-, hv', -, hb⟩ := (h.table.proc q).typed j t ht
      rw [hbusy]
      exact ⟨hv', rfl, hb⟩
    constructor
    all_goals rw [update_self]
    · exact hold.locked
    · intro j hj
      rcases hold.backed j hj with hr | ⟨f, w, hf⟩
      · exact .inl hr
      · exact .inr ⟨f, w, .inr ⟨hf, fun _ => Fact.noConfusion⟩⟩
    · exact hold.nodup
    · exact hold.stage
    · intro j t ht
      rw [hbusy]
      rcases ht with heq | ⟨ht, -⟩
      · injection heq with hj ht
        subst hj ht
        exact ⟨.inr hi, hv, rfl, h.table.not_busy hi hs⟩
      · exact hold.typed j t ht
    · intro j n hn
      rcases hn with heq | ⟨hn, -⟩
      · cases heq
      · exact hold.num j n hn
    · exact hold.cwd
    · exact hold.alive
    · exact not_dead ha
    · exact fun _ _ hst => Loc.no_stage hs hst

end Fields

theorem TableInv.effect {Ls' : Locs} (h : Inv md s Ls) (he : Effect md p s Ls s' Ls') :
    TableInv s' Ls' := by
  cases he with
  | forget K hK => exact table_forget h hK
  | learn φ ha hφ => exact table_learn h ha hφ
  | loaded i ha hl hs hv => exact table_loaded h ha hl hs hv
  | hold new i n ha hr hn => exact table_hold h new ha hr hn
  | recycle new i n ha hr hn => exact table_recycle h new ha hr hn
  | acquire i ha hs hb hl => exact table_acquire h ha hs hb hl
  | load i hl hs hv ht =>
    rw [update_eq_self]
    exact table_load h hl hs hv ht
  | unlock i ha hl hs => exact table_unlock h ha hl hs
  | putMore i ha hr hs hl => exact table_putMore h ha hr hs hl
  | putLast i ha hr hs href hv hlink hl => exact table_putLast h ha hr hs href hv hlink hl
  | store i d data K hl hs ht htype hK => exact table_store h hl hs ht htype hK
  | trunc i ha hs => exact table_trunc h ha hs
  | free i ha hs => exact table_free h ha hs
  | invalidate i ha hs => exact table_invalidate h ha hs
  | drop i ha hs => exact table_drop h ha hs
  | ialloc dp n t ha hn => exact table_ialloc h dp ha hn
  | seek f off => exact table_seek h f off
  | filealloc f ha => exact table_filealloc h f ha
  | fdalloc fd f ha => exact table_fdalloc h fd f ha
  | openFile f i fl ha hf _ hs hr hl _ _ hfl hip =>
    exact table_openFile h ha ((h.files.proc p).fresh f hf).2.1 hs hr hl hfl hip
  | dropFile f ha _ ho => exact table_dropFile h f ha ho
  | dropLast f ha _ ho => exact table_dropLast h ha ho
  | takeFd fd ha _ ho => exact (tableSame_setFd (tableSame_takeFd fd _ ha ho)).tableInv h
  | exitFd fd ha _ ho => exact (tableSame_takeFd fd _ ha ho).tableInv h
  | clearFd fd ha => exact table_clearFd h fd ha
  | dupFd fd f => exact table_dupFd h fd f
  | takeCwd i ha hc => exact table_takeCwd h ha hc
  | setCwd i ha hc hr hs hl => exact table_setCwd h ha hc hr hs hl
  | exit _ hc hr hl hf hg hs => exact table_exit h hc hr hl hf hg hs
  | born i ha hi =>
    obtain ⟨q, hq⟩ := hi
    exact table_born h ha (cwd_pos h hq)

end Xv6.Inodes
