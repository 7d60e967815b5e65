import Xv6.InodeEffects

/-! An effect of one process leaves alone what the others have locked, know or are freeing, so only
the process itself and the counts are looked at for each effect. -/
namespace Xv6.Inodes

open Interleaving Function

variable {md : Mode} {p q : Fin NPROC} {s s' : State} {Ls : Locs} {L' : Loc} {i j : Fin NINODE}

section
variable (s : State)

@[simp] theorem setInode_inode (i j : Fin NINODE) (ip : Inode) :
    (s.setInode i ip).inode j = if j = i then ip else s.inode j := by
  simp [State.setInode, update_apply]

@[simp] theorem setInode_proc (i : Fin NINODE) (ip : Inode) : (s.setInode i ip).proc = s.proc := rfl

theorem idup_inode (i j : Fin NINODE) :
    (idup s i).inode j = { s.inode j with ref := (s.inode j).ref+if j = i then 1 else 0 } := by
  unfold idup
  rw [setInode_inode]
  split_ifs with h
  · rw [h]
  · rfl

theorem idup_pos {i j : Fin NINODE} (hi : 0 < (s.inode i).ref)
    (hj : 0 < ((idup s i).inode j).ref) : 0 < (s.inode j).ref := by
  rw [idup_inode] at hj
  by_cases hji : j = i
  · rwa [hji]
  · simpa [hji] using hj

theorem setRef_inode (i j : Fin NINODE) (r : ℕ) :
    (s.setInode i { s.inode i with ref := r }).inode j =
      { s.inode j with ref := if j = i then r else (s.inode j).ref } := by
  rw [setInode_inode]
  split_ifs with h
  · rw [h]
  · rfl

theorem setRef_pos {i j : Fin NINODE} {r : ℕ} (hr : r ≤ (s.inode i).ref)
    (hj : 0 < ((s.setInode i { s.inode i with ref := r }).inode j).ref) : 0 < (s.inode j).ref := by
  rw [setRef_inode] at hj
  by_cases hji : j = i
  · rw [if_pos hji] at hj
    rw [hji]
    exact hj.trans_le hr
  · rwa [if_neg hji] at hj

theorem iupdate_inode (i j : Fin NINODE) (d : Dnode) : (s.iupdate i d).inode j =
      { s.inode j with d := if j = i then d else (s.inode j).d } := by
  by_cases h : j = i
  · subst h
    simp [State.iupdate]
  · simp [State.iupdate, h]

theorem iupdate_dinode (i : Fin NINODE) (d : Dnode) (n : ℕ) :
    (s.iupdate i d).dinode n = if n = (s.inode i).inum then d else s.dinode n := by
  simp [State.iupdate, update_apply]

end

/-! ## Counting -/

theorem Loc.holds_addRef (L : Loc) (i j : Fin NINODE) :
    (L.addRef i).holds j = L.holds j+if j = i then 1 else 0 := by
  unfold Loc.addRef Loc.holds
  by_cases h : j = i
  · subst h
    simp
    omega
  · have hne : ¬ i = j := fun h' => h h'.symm
    simp [h, hne]

theorem Loc.holds_got (L : Loc) (new : Bool) (i j : Fin NINODE) (n : ℕ) :
    (L.got new i n).holds j = L.holds j+if j = i then 1 else 0 := by
  have h := L.holds_addRef i j
  cases new with
  | false => exact h
  | true => exact h

variable {L : Loc}

theorem Loc.holds_dropRef (hi : i ∈ L.refs) (j : Fin NINODE) :
    (L.dropRef i).holds j+(if j = i then 1 else 0) = L.holds j := by
  unfold Loc.dropRef Loc.holds
  dsimp only
  by_cases h : j = i
  · subst h
    have hpos := List.count_pos_iff.mpr hi
    rw [List.count_erase_self, if_pos rfl]
    omega
  · rw [List.count_erase_of_ne h, if_neg h]
    omega

theorem Loc.holds_takeCwd (hc : L.cwd = some i) (j : Fin NINODE) :
    ({ L.addRef i with cwd := none } : Loc).holds j = L.holds j := by
  have hadd := L.holds_addRef i j
  unfold Loc.addRef Loc.holds at *
  rw [hc, if_neg (Option.some_ne_none j).symm]
  simp only [Option.some.injEq, eq_comm (a := i)] at hadd ⊢
  omega

theorem Loc.holds_setCwd (hc : L.cwd = none) (hi : i ∈ L.refs) (j : Fin NINODE) :
    ({ L.dropRef i with cwd := some i } : Loc).holds j = L.holds j := by
  have hnone : (L.dropRef i).cwd = none := hc
  calc
    _ = (L.dropRef i).holds j+if j = i then 1 else 0 := by
      unfold Loc.holds
      rw [hnone]
      simp [eq_comm]
    _ = L.holds j := Loc.holds_dropRef hi j

theorem TableInv.counted_of (h : TableInv s Ls) (hfile : s'.file = s.file)
    (hc : ∀ j, (s'.inode j).ref+(Ls p).holds j = (s.inode j).ref+L'.holds j) (j : Fin NINODE) :
    (s'.inode j).ref = outstanding s' (update Ls p L') j := by
  have htotal := total_loc (·.holds j) s Ls j p L'
  have hold := h.counted j
  have hnew := hc j
  unfold outstanding at hold ⊢
  rw [total_congr hfile]
  omega

/-! ## Other processes -/

def SameStage (L L' : Loc) : Prop :=
  ∀ i st, st ≠ .dropping → (L'.stage = some (i, st) ↔ L.stage = some (i, st))

theorem SameStage.of_eq (h : L'.stage = L.stage) : SameStage L L' := by
  intro i st _
  rw [h]

theorem SameStage.stage_iff (h : SameStage (Ls p) L') {st : Stage} (hst : st ≠ .dropping)
    (q : Fin NPROC) : (update Ls p L' q).stage = some (i, st) ↔ (Ls q).stage = some (i, st) := by
  by_cases hq : q = p
  · rw [hq, update_self, h i st hst]
  · rw [update_of_ne hq]

theorem SameStage.busy (h : SameStage (Ls p) L') :
    Busy (update Ls p L') i ↔ Busy Ls i := by
  constructor
  · rintro ⟨q, st, hq, hst⟩
    exact ⟨q, st, (h.stage_iff hst q).mp hq, hst⟩
  · rintro ⟨q, st, hq, hst⟩
    exact ⟨q, st, (h.stage_iff hst q).mpr hq, hst⟩

theorem Loc.no_stage {P : Prop} {st : Stage} (hs : L.stage = none)
    (hst : L.stage = some (i, st)) : P := by
  rw [hs] at hst
  cases hst

/-- An inode that is being freed after an effect of `p` was so before, or is now by `p`. -/
theorem busy_cases (h : Busy (update Ls p L') i) :
    Busy Ls i ∨ ∃ st, L'.stage = some (i, st) ∧ st ≠ .dropping := by
  obtain ⟨q, st, hq, hst⟩ := h
  by_cases hqp : q = p
  · rw [hqp, update_self] at hq
    exact .inr ⟨st, hq, hst⟩
  · rw [update_of_ne hqp] at hq
    exact .inl ⟨q, st, hq, hst⟩

/-- Seen from the other processes, `p` has done nothing to what they rely on. -/
structure Quiet (p : Fin NPROC) (s : State) (Ls : Locs) (s' : State) (L' : Loc) : Prop where
  cwd : ∀ q, q ≠ p → (s'.proc q).cwd = (s.proc q).cwd
  inum : ∀ i, 0 < (s.inode i).ref → (s'.inode i).inum = (s.inode i).inum
  lock : ∀ q, q ≠ p → ∀ i, (s'.inode i).lock = some q ↔ (s.inode i).lock = some q
  locked : ∀ q, q ≠ p → ∀ i, (s.inode i).lock = some q →
    (s'.inode i).valid = (s.inode i).valid ∧ (s'.inode i).d = (s.inode i).d
  typed : ∀ q, q ≠ p → ∀ i t, Fact.type i t ∈ (Ls q).know → (s'.inode i).valid = true ∧
    (s'.inode i).d.type = (s.inode i).d.type ∧ ¬ Busy (update Ls p L') i

theorem Quiet.tableLoc (hquiet : Quiet p s Ls s' L') (h : TableInv s Ls) (hq : q ≠ p) :
    TableLoc s' (update Ls p L') q := by
  have hL : update Ls p L' q = Ls q := update_of_ne hq _ _
  have hold := h.proc q
  constructor
  · intro i
    rw [hL, hold.locked i, hquiet.lock q hq i]
  · rw [hL]
    exact hold.backed
  · rw [hL]
    exact hold.nodup
  · intro i st hst
    rw [hL] at hst ⊢
    obtain ⟨hr, hlocked, hdropping, hlink⟩ := hold.stage i st hst
    refine ⟨hr, ?_, hdropping, ?_⟩
    · intro hne
      obtain ⟨hl, hv⟩ := hlocked hne
      rw [(hquiet.locked q hq i ((hold.locked i).mp hl)).1]
      exact ⟨hl, hv⟩
    · intro hfree
      have hne : st ≠ .dropping := by
        rcases hfree with rfl | rfl <;> exact Stage.noConfusion
      rw [(hquiet.locked q hq i ((hold.locked i).mp (hlocked hne).1)).2]
      exact hlink hfree
  · intro i t ht
    rw [hL] at ht ⊢
    obtain ⟨hheld, -, htype, -⟩ := hold.typed i t ht
    obtain ⟨hv, hsame, hbusy⟩ := hquiet.typed q hq i t ht
    exact ⟨hheld, hv, hsame.trans htype, hbusy⟩
  · intro i n hn
    rw [hL] at hn ⊢
    obtain ⟨hr, hi⟩ := hold.num i n hn
    exact ⟨hr, (hquiet.inum i (h.ref_pos hr)).trans hi⟩
  · intro i hi
    rw [hL] at hi
    rw [hquiet.cwd q hq]
    exact hold.cwd i hi
  · rw [hL, hquiet.cwd q hq]
    exact hold.alive
  · rw [hL]
    exact hold.dead
  · rw [hL]
    exact hold.untyped

theorem Quiet.procs (hquiet : Quiet p s Ls s' L') (h : TableInv s Ls)
    (hown : TableLoc s' (update Ls p L') p) (q : Fin NPROC) : TableLoc s' (update Ls p L') q := by
  by_cases hq : q = p
  · rwa [hq]
  · exact hquiet.tableLoc h hq

theorem Inv.typed_pos (h : Inv md s Ls) {t : ℕ} (ht : Fact.type i t ∈ (Ls p).know) :
    0 < (s.inode i).ref := by
  rcases ((h.table.proc p).typed i t ht).1 with hr | hl
  · exact h.table.ref_pos hr
  · exact h.locked_pos hl

/-! ## Effects on references and knowledge -/

/-- No entry changes but for its reference count, and no lock. -/
structure KeptTable (s s' : State) : Prop where
  lock : ∀ j, (s'.inode j).lock = (s.inode j).lock
  same : ∀ j, 0 < (s.inode j).ref → (s'.inode j).inum = (s.inode j).inum ∧
    (s'.inode j).valid = (s.inode j).valid ∧ (s'.inode j).d = (s.inode j).d
  fresh : ∀ j, (s.inode j).ref = 0 → 0 < (s'.inode j).ref → (s'.inode j).valid = false
  disk : ∀ n, (s.dinode n).type ≠ 0 → s'.dinode n = s.dinode n

theorem KeptTable.recount (ref : Fin NINODE → ℕ)
    (hinode : ∀ j, s'.inode j = { s.inode j with ref := ref j })
    (hpos : ∀ j, 0 < (s'.inode j).ref → 0 < (s.inode j).ref) (hdisk : s'.dinode = s.dinode) :
    KeptTable s s' where
  lock j := by rw [hinode]
  same j _ := by rw [hinode]; exact ⟨rfl, rfl, rfl⟩
  fresh j h0 hj := absurd h0 (hpos j hj).ne'
  disk n _ := by rw [hdisk]

theorem KeptTable.setRef {r : ℕ} (hr : r ≤ (s.inode i).ref) :
    KeptTable s (s.setInode i { s.inode i with ref := r }) :=
  .recount _ (fun j => setRef_inode s i j r) (fun _ => setRef_pos s hr) rfl

theorem KeptTable.of_eq (hinode : s'.inode = s.inode) (hdisk : s'.dinode = s.dinode) :
    KeptTable s s' :=
  .recount (fun j => (s.inode j).ref) (fun j => by rw [hinode]) (fun j => by rw [hinode]; exact id) hdisk

/-- The effect of `p` is of this kind. -/
structure Kept (p : Fin NPROC) (s : State) (Ls : Locs) (s' : State) (L' : Loc) : Prop
    extends KeptTable s s' where
  others : ∀ q, q ≠ p → (s'.proc q).cwd = (s.proc q).cwd
  stage : SameStage (Ls p) L'
  staged : ∀ i st, L'.stage = some (i, st) → (Ls p).stage = some (i, st) ∧ i ∈ L'.refs
  locks : L'.locks = (Ls p).locks
  backed : ∀ i ∈ (Ls p).locks, L'.Backs i
  typed : ∀ i t, Fact.type i t ∈ L'.know → Fact.type i t ∈ (Ls p).know ∧
    (i ∈ L'.refs ∨ i ∈ (Ls p).locks)
  num : ∀ i n, Fact.num i n ∈ L'.know → i ∈ L'.refs ∧
    (Fact.num i n ∈ (Ls p).know ∨ (s'.inode i).inum = n)
  cwd : ∀ i, L'.cwd = some i → (s'.proc p).cwd = some i
  alive : L'.alive = (s'.proc p).cwd.isSome
  dead : L'.alive = false → L'.refs = [] ∧ L'.locks = [] ∧ L'.files = [] ∧ L'.gone = none ∧
    L'.stage = none ∧ L'.know = ∅

section
variable (hk : Kept p s Ls s' L') (h : Inv md s Ls)
include hk h

theorem Kept.quiet : Quiet p s Ls s' L' := by
  constructor
  · exact hk.others
  · intro i hi
    exact (hk.same i hi).1
  · intro q _ i
    rw [hk.lock]
  · intro q _ i hi
    have hlocked := ((h.table.proc q).locked i).mpr hi
    exact (hk.same i (h.locked_pos hlocked)).2
  · intro q _ i t ht
    obtain ⟨-, hv, -, hb⟩ := (h.table.proc q).typed i t ht
    obtain ⟨-, hv', hd⟩ := hk.same i (h.typed_pos ht)
    rw [hv', hd]
    exact ⟨hv, rfl, fun hb' => hb (hk.stage.busy.mp hb')⟩

theorem Kept.tableLoc :
    TableLoc s' (update Ls p L') p := by
  have hold := h.table.proc p
  constructor
  all_goals rw [update_self]
  · intro i
    rw [hk.locks, hk.lock]
    exact hold.locked i
  · rw [hk.locks]
    exact hk.backed
  · rw [hk.locks]
    exact hold.nodup
  · intro i st hst
    obtain ⟨hst', hr⟩ := hk.staged i st hst
    obtain ⟨hr', hlocked, hdropping, hlink⟩ := hold.stage i st hst'
    obtain ⟨-, hv, hd⟩ := hk.same i (h.table.ref_pos hr')
    rw [hk.locks, hv, hd]
    exact ⟨hr, hlocked, hdropping, hlink⟩
  · intro i t ht
    obtain ⟨ht', hheld⟩ := hk.typed i t ht
    obtain ⟨-, hv, htype, hb⟩ := hold.typed i t ht'
    obtain ⟨-, hv', hd⟩ := hk.same i (h.typed_pos ht')
    rw [hk.locks, hv', hd, hk.stage.busy]
    exact ⟨hheld, hv, htype, hb⟩
  · intro i n hn
    obtain ⟨hr, hold' | hnew⟩ := hk.num i n hn
    · obtain ⟨hr', hi⟩ := hold.num i n hold'
      exact ⟨hr, (hk.same i (h.table.ref_pos hr')).1.trans hi⟩
    · exact ⟨hr, hnew⟩
  · exact hk.cwd
  · exact hk.alive
  · exact hk.dead
  · intro i st hst t ht
    exact hold.untyped i st (hk.staged i st hst).1 t (hk.typed i t ht).1

theorem Kept.agrees (i : Fin NINODE) (hr : 0 < (s'.inode i).ref) (hv : (s'.inode i).valid = true)
    (hf : ∀ q, (update Ls p L' q).stage ≠ some (i, .freed)) :
    (s'.inode i).d = s'.dinode (s'.inode i).inum ∧ (s'.inode i).d.type ≠ 0 := by
  rcases Nat.eq_zero_or_pos (s.inode i).ref with h0 | hpos
  · rw [hk.fresh i h0 hr] at hv
    cases hv
  · obtain ⟨hn, hv', hd⟩ := hk.same i hpos
    rw [hv'] at hv
    have hf' (q : Fin NPROC) : (Ls q).stage ≠ some (i, .freed) :=
      fun hq => hf q ((hk.stage.stage_iff Stage.noConfusion q).mpr hq)
    obtain ⟨heq, hne⟩ := h.table.agrees i hpos hv hf'
    rw [hn, hd, hk.disk _ (by rwa [← heq])]
    exact ⟨heq, hne⟩

theorem Kept.tableInv (hcounted : ∀ j, (s'.inode j).ref = outstanding s' (update Ls p L') j)
    (hunique : ∀ i j, 0 < (s'.inode i).ref → 0 < (s'.inode j).ref →
      (s'.inode i).inum = (s'.inode j).inum → i = j) :
    TableInv s' (update Ls p L') :=
  ⟨hcounted, hunique, hk.agrees h, (hk.quiet h).procs h.table (hk.tableLoc h)⟩

end

theorem Kept.unique (hk : Kept p s Ls s' L') (h : TableInv s Ls)
    (hpos : ∀ j, 0 < (s'.inode j).ref → 0 < (s.inode j).ref) (i j : Fin NINODE)
    (hi : 0 < (s'.inode i).ref) (hj : 0 < (s'.inode j).ref)
    (hij : (s'.inode i).inum = (s'.inode j).inum) : i = j := by
  have hi' := hpos i hi
  have hj' := hpos j hj
  rw [(hk.same i hi').1, (hk.same j hj').1] at hij
  exact h.unique i j hi' hj' hij

theorem Kept.recounted (hk : Kept p s Ls s' L') (h : Inv md s Ls) (hfile : s'.file = s.file)
    (hc : ∀ j, (s'.inode j).ref+(Ls p).holds j = (s.inode j).ref+L'.holds j)
    (hpos : ∀ j, 0 < (s'.inode j).ref → 0 < (s.inode j).ref) : TableInv s' (update Ls p L') :=
  hk.tableInv h (h.table.counted_of hfile hc) (hk.unique h.table hpos)

end Xv6.Inodes
