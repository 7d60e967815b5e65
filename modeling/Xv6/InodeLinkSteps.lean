import Xv6.InodeTreeSteps

/-! As long as every number that is looked up belongs to an inode with links, an inode that is being
freed has one reference only, and a new inode is found as it was allocated. -/
namespace Xv6.Inodes

open Interleaving Function

variable {md : Mode} {p q : Fin NPROC} {s s' : State} {Ls : Locs} {L' : Loc} {i j : Fin NINODE}

/-! ## Counting the references that last -/

variable {L : Loc} {st : Stage} {t n : ℕ} {new : Bool}

theorem Loc.not_ends_of_none (h : L.stage = none) : ¬ L.Ends i := by
  unfold Loc.Ends
  simp [h]

theorem Loc.not_ends_of_freeing (h : L.stage = some (j, st))
    (hst : st = .freeing ∨ st = .trunced) : ¬ L.Ends i := by
  unfold Loc.Ends
  rcases hst with rfl | rfl <;> simp [h]

theorem Loc.keeps_of_not_ends (h : ¬ L.Ends i) : L.keeps i = L.holds i := by
  unfold Loc.keeps
  rw [if_neg h, Nat.sub_zero]

theorem Loc.keepsVar_of_not_ends (h : ¬ L.Ends i) : L.keepsVar i = L.refs.count i := by
  unfold Loc.keepsVar
  rw [if_neg h, Nat.sub_zero]

theorem Loc.keepsVar_congr (hrefs : L'.refs.count i = L.refs.count i)
    (hends : L'.Ends i ↔ L.Ends i) : L'.keepsVar i = L.keepsVar i := by
  unfold Loc.keepsVar
  rw [hrefs]
  simp only [hends]

theorem Loc.keeps_congr (hholds : L'.holds i = L.holds i)
    (hends : L'.Ends i ↔ L.Ends i) : L'.keeps i = L.keeps i := by
  unfold Loc.keeps
  rw [hholds]
  simp only [hends]

theorem Loc.ends_of_stage (h : L'.stage = L.stage) : L'.Ends i ↔ L.Ends i := by
  unfold Loc.Ends
  rw [h]

theorem Loc.keepsVar_mono (hrefs : L.refs.count i ≤ L'.refs.count i)
    (hstage : L'.stage = L.stage) : L.keepsVar i ≤ L'.keepsVar i := by
  unfold Loc.keepsVar
  simp only [Loc.ends_of_stage hstage]
  exact Nat.sub_le_sub_right hrefs _

/-- More references, and the one that goes with a freed inode is among the old ones. -/
theorem Loc.keeps_add {k : ℕ} (hholds : L'.holds i = L.holds i+k)
    (hstage : L'.stage = L.stage) (hends : L.Ends i → i ∈ L.refs) :
    L'.keeps i = L.keeps i+k := by
  unfold Loc.keeps
  rw [hholds]
  simp only [Loc.ends_of_stage hstage]
  by_cases he : L.Ends i
  · have hpos := Loc.holds_pos (hends he)
    rw [if_pos he]
    omega
  · rw [if_neg he]
    rfl

theorem Loc.keepsVar_erase (hs : L.stage = none) (hs' : L'.stage = none)
    (hrefs : L'.refs = L.refs.erase i) (hmem : j = i → i ∈ L.refs.erase i)
    (hpos : 0 < L.keepsVar j) : 0 < L'.keepsVar j := by
  rw [Loc.keepsVar_of_not_ends (Loc.not_ends_of_none hs)] at hpos
  rw [Loc.keepsVar_of_not_ends (Loc.not_ends_of_none hs'), hrefs]
  by_cases hji : j = i
  · rw [hji]
    exact List.count_pos_iff.mpr (hmem hji)
  · rw [List.count_erase_of_ne hji]
    exact hpos

theorem keepsVar_mem (hk : 0 < L.keepsVar i) : i ∈ L.refs := by
  unfold Loc.keepsVar at hk
  apply List.count_pos_iff.mp
  omega

theorem TableInv.ends_mem (h : TableInv s Ls) (hi : (Ls p).Ends i) : i ∈ (Ls p).refs := by
  rcases hi with hi | hi
  · exact ((h.proc p).stage i _ hi).1
  · exact ((h.proc p).stage i _ hi).1

theorem keeps_le_lasting (s : State) (Ls : Locs) (p : Fin NPROC) (i : Fin NINODE) :
    (Ls p).keeps i ≤ lasting s Ls i :=
  le_total (·.keeps i) s Ls i p

theorem lasting_le (h : TableInv s Ls) (i : Fin NINODE) :
    lasting s Ls i ≤ (s.inode i).ref := by
  rw [h.counted]
  unfold lasting outstanding total
  exact Nat.add_le_add_right (Finset.sum_le_sum fun p _ => Nat.sub_le _ _) _

theorem keepsVar_cwd (h : TableInv s Ls) (i : Fin NINODE) :
    (Ls p).keeps i = (Ls p).keepsVar i+if (Ls p).cwd = some i then 1 else 0 := by
  unfold Loc.keeps Loc.keepsVar Loc.holds
  by_cases hends : (Ls p).Ends i
  · have hpos := List.count_pos_iff.mpr (h.ends_mem hends)
    simp only [hends, if_true]
    omega
  · simp only [hends, if_false]
    omega

theorem keepsVar_le (h : TableInv s Ls) : (Ls p).keepsVar i ≤ (Ls p).keeps i := by
  rw [keepsVar_cwd h]
  exact Nat.le_add_right _ _

theorem cwd_keeps (h : TableInv s Ls) (hc : (Ls p).cwd = some i) : 0 < (Ls p).keeps i := by
  rw [keepsVar_cwd h, if_pos hc]
  exact Nat.succ_pos _

theorem lasting_update (s s' : State) (Ls : Locs) (p : Fin NPROC) (L' : Loc)
    (hfile : s'.file = s.file) (i : Fin NINODE) :
    lasting s' (update Ls p L') i+(Ls p).keeps i = lasting s Ls i+L'.keeps i := by
  have htotal := total_loc (·.keeps i) s Ls i p L'
  unfold lasting
  rw [total_congr hfile]
  exact htotal

theorem lasting_eq (hfiles : ∀ f j, fileHolds (s'.file f) j = fileHolds (s.file f) j)
    (hkeeps : ∀ j, L'.keeps j = (Ls p).keeps j) (j : Fin NINODE) :
    lasting s' (update Ls p L') j = lasting s Ls j := by
  have htotal := total_loc (·.keeps j) s Ls j p L'
  have hsame : total (·.keeps j) s' (update Ls p L') j =
      total (·.keeps j) s (update Ls p L') j := by
    unfold total
    simp only [hfiles]
  have hj := hkeeps j
  unfold lasting
  omega

section Lasting
variable (h : Inv md s Ls)
include h

/-- A reference that is not about to be given up lasts, and is not the one of another process. -/
theorem backs_lasting (hb : (Ls p).Backs i) (he : ¬ (Ls p).Ends i) (hpq : p ≠ q) :
    (Ls q).keeps i < lasting s Ls i := by
  rcases hb with hr | ⟨f, w, hf⟩
  · have hle := two_le_total (·.keeps i) s Ls i hpq
    have hpos := Loc.holds_pos hr
    rw [← Loc.keeps_of_not_ends he] at hpos
    unfold lasting
    omega
  · obtain ⟨-, hinode, hip, -⟩ := (h.files.proc p).opened f i w hf
    have hle := file_le_total (·.keeps i) s Ls i q f
    have hone : fileHolds (s.file f) i = 1 := by
      rw [← hip]
      exact fileHolds_ip hinode
    unfold lasting
    omega

theorem backs_lasting_pos (hb : (Ls p).Backs i) (he : ¬ (Ls p).Ends i) : 0 < lasting s Ls i := by
  -- any other process will do
  obtain ⟨q, hq⟩ : ∃ q : Fin NPROC, p ≠ q := by
    by_cases hp : p = 0
    · exact ⟨1, by rw [hp]; decide⟩
    · exact ⟨0, hp⟩
  exact lt_of_le_of_lt (Nat.zero_le _) (backs_lasting h hb he hq)

theorem no_type_of_lasting (h0 : lasting s Ls i = 0) (t : ℕ) : Fact.type i t ∉ (Ls p).know := by
  intro ht
  have hb : (Ls p).Backs i := by
    rcases ((h.table.proc p).typed i t ht).1 with hr | hl
    · exact .inl hr
    · exact (h.table.proc p).backed i hl
  have he : ¬ (Ls p).Ends i := by
    rintro (hs | hs)
    · exact (h.table.proc p).untyped i _ hs t ht
    · exact (h.table.proc p).untyped i _ hs t ht
  have hpos := backs_lasting_pos h hb he
  omega

theorem freeing_lasting (hs : (Ls p).stage = some (i, st))
    (hst : st = .freeing ∨ st = .trunced) : 0 < lasting s Ls i :=
  backs_lasting_pos h (.inl ((h.table.proc p).stage i st hs).1) (Loc.not_ends_of_freeing hs hst)

end Lasting

/-! ## One rule for all effects -/

/-- `p` changes entries in `I` and inodes on the disk with numbers in `N`.  Nobody else allocated
these numbers, has just got them or is freeing these entries. -/
structure LinkStep (p : Fin NPROC) (s : State) (Ls : Locs) (I : Set (Fin NINODE)) (N : Set ℕ)
    (s' : State) (L' : Loc) : Prop where
  inum : ∀ j ∈ I, (s'.inode j).inum ∈ N
  other : ∀ j ∉ I, (s'.inode j).inum = (s.inode j).inum ∧
    (0 < (s'.inode j).ref → 0 < (s.inode j).ref) ∧
    (0 < lasting s Ls j → (s.inode j).inum ∉ N) ∧ lasting s' (update Ls p L') j = lasting s Ls j
  dinode : ∀ m ∉ N, s'.dinode m = s.dinode m
  live : ∀ j ∈ I, 0 < lasting s' (update Ls p L') j → (s'.dinode (s'.inode j).inum).type ≠ 0
  unborn : ∀ q ≠ p, ∀ m ∈ N, ∀ t, Fact.unborn m t ∉ (Ls q).know
  born : ∀ q ≠ p, ∀ j ∈ I, ∀ t, Fact.born j t ∉ (Ls q).know
  alone : ∀ q ≠ p, ∀ j st, (Ls q).stage = some (j, st) → st = .freeing ∨ st = .trunced →
    (s'.inode j).ref = (s.inode j).ref
  ownUnborn : ∀ m t, Fact.unborn m t ∈ L'.know → Fact.unborn m t ∈ (Ls p).know ∧ m ∉ N ∨
    m ∈ N ∧ t ≠ 0 ∧ s'.dinode m = ⟨t, 0, 0, 0, 0⟩ ∧
      ∀ j, 0 < (s'.inode j).ref → (s'.inode j).inum = m → lasting s' (update Ls p L') j = 0
  ownBorn : ∀ j t, Fact.born j t ∈ L'.know → 0 < L'.keepsVar j ∧
    (∀ u, Fact.type j u ∉ L'.know) ∧ (∀ st, L'.stage = some (j, st) → L'.Ends j) ∧
    (j ∉ I → Fact.born j t ∈ (Ls p).know) ∧
    (j ∈ I → s'.dinode (s'.inode j).inum = ⟨t, 0, 0, 0, 0⟩ ∧ lasting s' (update Ls p L') j = 1)
  ownAlone : ∀ j st, L'.stage = some (j, st) → st = .freeing ∨ st = .trunced → (s'.inode j).ref = 1

theorem LinkStep.linkInv {I : Set (Fin NINODE)} {N : Set ℕ} (hk : LinkStep p s Ls I N s' L')
    (hl : LinkInv s Ls) : LinkInv s' (update Ls p L') := by
  have hborn (q : Fin NPROC) (j : Fin NINODE) (t : ℕ) (hne : j ∉ I)
      (hj : Fact.born j t ∈ (Ls q).know) : s'.dinode (s'.inode j).inum = ⟨t, 0, 0, 0, 0⟩ ∧
        lasting s' (update Ls p L') j = 1 := by
    obtain ⟨-, hd, hone, -⟩ := (hl.proc q).born j t hj
    obtain ⟨hinum, -, hn, hlast⟩ := hk.other j hne
    rw [hinum, hk.dinode _ (hn (by omega)), hlast]
    exact ⟨hd, hone⟩
  have hunborn (q : Fin NPROC) (m t : ℕ) (hm : Fact.unborn m t ∈ (update Ls p L' q).know) :
      Fact.unborn m t ∈ (Ls q).know ∧ m ∉ N ∨ q = p ∧ m ∈ N ∧ t ≠ 0 ∧
        s'.dinode m = ⟨t, 0, 0, 0, 0⟩ ∧
        ∀ j, 0 < (s'.inode j).ref → (s'.inode j).inum = m →
          lasting s' (update Ls p L') j = 0 := by
    by_cases hq : q = p
    · subst hq
      rw [update_self] at hm
      exact (hk.ownUnborn m t hm).imp_right fun hnew => ⟨rfl, hnew⟩
    · rw [update_of_ne hq] at hm
      exact .inl ⟨hm, fun hN => hk.unborn q hq m hN t hm⟩
  constructor
  · intro j hj
    by_cases hne : j ∈ I
    · exact hk.live j hne hj
    · obtain ⟨hinum, -, hn, hlast⟩ := hk.other j hne
      rw [hlast] at hj
      rw [hinum, hk.dinode _ (hn hj)]
      exact hl.live j hj
  intro q
  have hold := hl.proc q
  constructor
  · intro m t hm
    rcases hunborn q m t hm with ⟨hm', hN⟩ | ⟨-, -, hnew⟩
    · obtain ⟨ht, hd, hzero⟩ := hold.unborn m t hm'
      rw [hk.dinode m hN]
      refine ⟨ht, hd, ?_⟩
      intro j hj hjm
      have hne : j ∉ I := by
        intro hI
        rw [← hjm] at hN
        exact hN (hk.inum j hI)
      obtain ⟨hinum, href, -, hlast⟩ := hk.other j hne
      rw [hlast]
      exact hzero j (href hj) (by rwa [← hinum])
    · exact hnew
  · intro m t r u hm hr
    rcases hunborn q m t hm with ⟨hm', hN⟩ | ⟨rfl, hN, -⟩
    · rcases hunborn r m u hr with ⟨hr', -⟩ | ⟨-, hN', -⟩
      · exact hold.once m t r u hm' hr'
      · exact absurd hN' hN
    · rcases hunborn r m u hr with ⟨-, hN'⟩ | ⟨rfl, -⟩
      · exact absurd hN hN'
      · rfl
  · intro j t hj
    by_cases hq : q = p
    · subst hq
      rw [update_self] at hj ⊢
      obtain ⟨hpos, htype, hstage, hother, hself⟩ := hk.ownBorn j t hj
      have hd : s'.dinode (s'.inode j).inum = ⟨t, 0, 0, 0, 0⟩ ∧
          lasting s' (update Ls q L') j = 1 := by
        by_cases hne : j ∈ I
        · exact hself hne
        · exact hborn q j t hne (hother hne)
      exact ⟨hpos, hd.1, hd.2, htype, hstage⟩
    · rw [update_of_ne hq] at hj ⊢
      obtain ⟨hpos, -, -, hrest⟩ := hold.born j t hj
      obtain ⟨hd, hone⟩ := hborn q j t (fun hI => hk.born q hq j hI t hj) hj
      exact ⟨hpos, hd, hone, hrest⟩
  · intro j st hs hst
    by_cases hq : q = p
    · subst hq
      rw [update_self] at hs
      exact hk.ownAlone j st hs hst
    · rw [update_of_ne hq] at hs
      rw [hk.alone q hq j st hs hst]
      exact hold.alone j st hs hst

/-! ## One reference more -/

/-- Nobody has the inode as a new one, and nobody is freeing it. -/
structure Settled (Ls : Locs) (i : Fin NINODE) (n : ℕ) : Prop where
  unborn : ∀ q t, Fact.unborn n t ∉ (Ls q).know
  born : ∀ q t, Fact.born i t ∉ (Ls q).know
  freeing : ∀ q st, (Ls q).stage = some (i, st) → ¬ (st = .freeing ∨ st = .trunced)

section Settled
variable (h : Inv md s Ls) (hl : LinkInv s Ls)
include h hl

theorem Settled.of_linked (hn : Linked s (s.inode i).inum) : Settled Ls i (s.inode i).inum := by
  constructor
  · intro q t hu
    obtain ⟨-, hd, -⟩ := (hl.proc q).unborn _ t hu
    exact hn.2 (by rw [hd])
  · intro q t hb
    obtain ⟨-, hd, -⟩ := (hl.proc q).born i t hb
    exact hn.2 (by rw [hd])
  · intro q st hs hst
    have hlink := ((h.table.proc q).stage i st hs).2.2.2 hst
    rw [(freeing_agrees h hs hst).1] at hlink
    exact hn.2 hlink

/-- A current directory was looked up before, and keeps the inode from being freed. -/
theorem Settled.of_cwd (hc : (Ls p).cwd = some i) : Settled Ls i (s.inode i).inum := by
  have hkeeps := cwd_keeps h.table hc
  have hle := keeps_le_lasting s Ls p i
  constructor
  · intro q t hu
    obtain ⟨-, -, hzero⟩ := (hl.proc q).unborn _ t hu
    have h0 := hzero i (cwd_pos h hc) rfl
    omega
  · intro q t hb
    obtain ⟨hpos, -, hone, -⟩ := (hl.proc q).born i t hb
    by_cases hq : q = p
    · subst hq
      rw [keepsVar_cwd h.table, if_pos hc] at hle
      omega
    · have hle' := two_le_total (·.keeps i) s Ls i hq
      have hvar := keepsVar_le (p := q) (i := i) h.table
      unfold lasting at hone
      omega
  · intro q st hs hst
    have hone := (hl.proc q).alone i st hs hst
    have hr := ((h.table.proc q).stage i st hs).1
    by_cases hq : q = p
    · subst hq
      have hcount := List.count_pos_iff.mpr hr
      have hholds := holds_le h (p := q) i
      unfold Loc.holds at hholds
      rw [if_pos hc] at hholds
      omega
    · have hle' := two_le_total (·.holds i) s Ls i hq
      have hq' := Loc.holds_pos hr
      have hp' := Loc.holds_pos_cwd hc
      rw [h.table.counted] at hone
      unfold outstanding at hone
      omega

/-- The number was allocated by `p`, which gets the first reference that lasts. -/
theorem new_unkept (h0 : lasting s Ls i = 0) : (∀ q t, Fact.born i t ∉ (Ls q).know) ∧
    ∀ q st, (Ls q).stage = some (i, st) → ¬ (st = .freeing ∨ st = .trunced) := by
  constructor
  · intro q t hb
    obtain ⟨-, -, hone, -⟩ := (hl.proc q).born i t hb
    omega
  · intro q st hs hst
    have hpos := freeing_lasting h hs hst
    omega

end Settled

theorem Loc.got_unborn {m : ℕ} (hm : Fact.unborn m t ∈ (L.got new i n).know) :
    Fact.unborn m t ∈ L.know ∧ (new = true → m ≠ n) := by
  cases new with
  | false =>
    rcases Set.mem_insert_iff.mp hm with h' | h'
    · cases h'
    · exact ⟨h', Bool.noConfusion⟩
  | true =>
    rcases hm with h' | ⟨h', hne⟩ | ⟨u, h', -⟩
    · cases h'
    · refine ⟨h', fun _ hmn => hne t ?_⟩
      rw [hmn]
    · cases h'

theorem Loc.got_born (hj : Fact.born j t ∈ (L.got new i n).know) :
    Fact.born j t ∈ L.know ∨ new = true ∧ j = i ∧ Fact.unborn n t ∈ L.know := by
  cases new with
  | false =>
    rcases Set.mem_insert_iff.mp hj with h' | h'
    · cases h'
    · exact .inl h'
  | true =>
    rcases hj with h' | ⟨h', -⟩ | ⟨u, h', hu⟩
    · cases h'
    · exact .inl h'
    · cases h'
      exact .inr ⟨rfl, rfl, hu⟩

theorem Loc.got_ends : (L.got new i n).Ends j ↔ L.Ends j :=
  Loc.ends_of_stage (Loc.got_stage L new n)

section Got
variable (h : Inv md s Ls) (new : Bool) (n : ℕ)
include h

theorem keeps_got (j : Fin NINODE) :
    ((Ls p).got new i n).keeps j = (Ls p).keeps j+if j = i then 1 else 0 :=
  Loc.keeps_add (Loc.holds_got _ _ _ _ _) (Loc.got_stage _ _ _) h.table.ends_mem

theorem keepsVar_got (j : Fin NINODE) :
    ((Ls p).got new i n).keepsVar j = (Ls p).keepsVar j+if j = i then 1 else 0 := by
  have hcount : (i :: (Ls p).refs).count j = (Ls p).refs.count j+if j = i then 1 else 0 := by
    rw [List.count_cons]
    simp only [beq_iff_eq, eq_comm (a := i)]
  unfold Loc.keepsVar
  rw [Loc.got_refs]
  simp only [Loc.got_ends]
  by_cases he : (Ls p).Ends j
  · have hpos := List.count_pos_iff.mpr (h.table.ends_mem he)
    simp only [he, if_true]
    omega
  · simp only [he, if_false]
    omega

theorem lasting_got (hfile : s'.file = s.file) (j : Fin NINODE) :
    lasting s' (update Ls p ((Ls p).got new i n)) j =
      lasting s Ls j+if j = i then 1 else 0 := by
  have hsum := lasting_update s _ Ls p ((Ls p).got new i n) hfile j
  rw [keeps_got h] at hsum
  omega

/-- One reference more to a settled inode, or the first one to a new inode. -/
theorem link_got (hl : LinkInv s Ls) (hfile : s'.file = s.file) (hdinode : s'.dinode = s.dinode)
    (hinum : (s'.inode i).inum = n)
    (hother : ∀ j, j ≠ i → s'.inode j = s.inode j ∧ (0 < (s.inode j).ref → (s.inode j).inum ≠ n))
    (hset : new = false → Settled Ls i n)
    (hnew : new = true → lasting s Ls i = 0 ∧ ∃ t, Fact.unborn n t ∈ (Ls p).know)
    (hlive : (s.dinode n).type ≠ 0) :
    LinkInv s' (update Ls p ((Ls p).got new i n)) := by
  have hfacts : (∀ q t, Fact.born i t ∉ (Ls q).know) ∧
      ∀ q st, (Ls q).stage = some (i, st) → ¬ (st = .freeing ∨ st = .trunced) := by
    cases new with
    | false => exact ⟨(hset rfl).born, (hset rfl).freeing⟩
    | true => exact new_unkept h hl (hnew rfl).1
  apply LinkStep.linkInv (I := {i}) (N := {n}) _ hl
  constructor
  case inum =>
    rintro j rfl
    exact hinum
  case other =>
    intro j (hj : j ≠ i)
    obtain ⟨hsame, hn⟩ := hother j hj
    rw [hsame, lasting_got h new n hfile, if_neg hj]
    exact ⟨rfl, id, fun hpos => hn (lt_of_lt_of_le hpos (lasting_le h.table j)), Nat.add_zero _⟩
  case dinode =>
    intro m _
    rw [hdinode]
  case live =>
    rintro j rfl _
    rw [hdinode, hinum]
    exact hlive
  case unborn =>
    rintro q hq m rfl t hu
    cases new with
    | false => exact (hset rfl).unborn q t hu
    | true =>
      obtain ⟨u, hp⟩ := (hnew rfl).2
      exact hq ((hl.proc p).once m u q t hp hu)
  case born =>
    rintro q - j rfl
    exact hfacts.1 q
  case alone =>
    intro q _ j st hs hst
    have hne : j ≠ i := by
      rintro rfl
      exact hfacts.2 q st hs hst
    rw [(hother j hne).1]
  case ownUnborn =>
    intro m t hm
    obtain ⟨hm', hne⟩ := Loc.got_unborn hm
    refine .inl ⟨hm', ?_⟩
    cases new with
    | true => exact hne rfl
    | false =>
      rintro rfl
      exact (hset rfl).unborn p t hm'
  case ownBorn =>
    intro j t hj
    rw [keepsVar_got h, Loc.got_stage]
    simp only [Loc.got_type, Loc.got_ends]
    rcases Loc.got_born hj with hold | ⟨hnew', rfl, hu⟩
    · obtain ⟨hpos, -, -, htype, hstage⟩ := (hl.proc p).born j t hold
      refine ⟨by omega, htype, hstage, fun _ => hold, ?_⟩
      rintro rfl
      exact absurd hold (hfacts.1 p t)
    · have h0 := (hnew hnew').1
      refine ⟨by simp, no_type_of_lasting h h0, ?_, absurd rfl, ?_⟩
      · intro st hs
        have hst := hfacts.2 p st hs
        cases st with
        | freeing => exact absurd (.inl rfl) hst
        | trunced => exact absurd (.inr rfl) hst
        | freed => exact .inl hs
        | dropping => exact .inr hs
      · intro _
        rw [hdinode, hinum, lasting_got h new n hfile, if_pos rfl, h0]
        exact ⟨((hl.proc p).unborn n t hu).2.1, rfl⟩
  case ownAlone =>
    intro j st hs hst
    rw [Loc.got_stage] at hs
    have hne : j ≠ i := by
      rintro rfl
      exact hfacts.2 p st hs hst
    rw [(hother j hne).1]
    exact (hl.proc p).alone j st hs hst

end Got

section Steps
variable (h : Inv md s Ls) (hl : LinkInv s Ls)
include h hl

theorem link_hold (new : Bool) (hr : 0 < (s.inode i).ref) (hn : (s.inode i).inum = n)
    (hmay : MayGet s (Ls p) new n ∨ new = false ∧ (Ls p).cwd = some i) :
    LinkInv (idup s i) (update Ls p ((Ls p).got new i n)) := by
  have hother (j : Fin NINODE) (hj : j ≠ i) : (idup s i).inode j = s.inode j ∧
      (0 < (s.inode j).ref → (s.inode j).inum ≠ n) := by
    rw [idup_inode, if_neg hj, ← hn]
    exact ⟨rfl, fun hpos => h.table.inum_ne hpos hr hj⟩
  have hinum : ((idup s i).inode i).inum = n := by
    rw [idup_inode]
    exact hn
  cases new with
  | true =>
    obtain ⟨t, hu⟩ : ∃ t, Fact.unborn n t ∈ (Ls p).know := by
      rcases hmay with hmay | ⟨h', -⟩
      · exact hmay
      · cases h'
    obtain ⟨ht, hd, hzero⟩ := (hl.proc p).unborn n t hu
    refine link_got h true n hl rfl rfl hinum hother Bool.noConfusion
      (fun _ => ⟨hzero i hr hn, t, hu⟩) ?_
    rw [hd]
    exact ht
  | false =>
    have hset : Settled Ls i n ∧ (s.dinode n).type ≠ 0 := by
      rw [← hn] at hmay ⊢
      rcases hmay with hlinked | ⟨-, hc⟩
      · exact ⟨.of_linked h hl hlinked, hlinked.1⟩
      · refine ⟨.of_cwd h hl hc, hl.live i ?_⟩
        exact lt_of_lt_of_le (cwd_keeps h.table hc) (keeps_le_lasting s Ls p i)
    exact link_got h false n hl rfl rfl hinum hother (fun _ => hset.1)
      Bool.noConfusion hset.2

theorem link_recycle (new : Bool) (hr : (s.inode i).ref = 0)
    (hn : ∀ j, 0 < (s.inode j).ref → (s.inode j).inum ≠ n) (hmay : MayGet s (Ls p) new n) :
    LinkInv (s.recycle i n) (update Ls p ((Ls p).got new i n)) := by
  have hnone (q : Fin NPROC) : i ∉ (Ls q).refs := by
    intro hi
    have hpos := h.table.ref_pos hi
    omega
  have hother (j : Fin NINODE) (hj : j ≠ i) : (s.recycle i n).inode j = s.inode j ∧
        (0 < (s.inode j).ref → (s.inode j).inum ≠ n) := by
    rw [setInode_inode, if_neg hj]
    exact ⟨rfl, hn j⟩
  have hinum : ((s.recycle i n).inode i).inum = n := by
    rw [setInode_inode, if_pos rfl]
  cases new with
  | true =>
    obtain ⟨t, hu⟩ := hmay
    obtain ⟨ht, hd, -⟩ := (hl.proc p).unborn n t hu
    have h0 : lasting s Ls i = 0 := by
      have hle := lasting_le h.table i
      omega
    refine link_got h true n hl rfl rfl hinum hother Bool.noConfusion
      (fun _ => ⟨h0, t, hu⟩) ?_
    rw [hd]
    exact ht
  | false =>
    have hlinked : Linked s n := hmay
    refine link_got h false n hl rfl rfl hinum hother ?_ Bool.noConfusion hlinked.1
    intro _
    constructor
    · intro q t hu
      obtain ⟨-, hd, -⟩ := (hl.proc q).unborn n t hu
      exact hlinked.2 (by rw [hd])
    · exact fun q t hb => hnone q (keepsVar_mem ((hl.proc q).born i t hb).1)
    · exact fun q st hs => absurd ((h.table.proc q).stage i st hs).1 (hnone q)

theorem link_born (ha : (Ls p).alive = false) (hi : (Ls q).cwd = some i) : LinkInv (s.bears p i)
      (update Ls p { Ls p with alive := true, cwd := some i }) := by
  obtain ⟨hrefs, -, -, -, hstage, hknow⟩ := (h.table.proc p).dead ha
  have hset := Settled.of_cwd h hl hi
  have hpos := cwd_pos h hi
  have hinode (j : Fin NINODE) : (s.bears p i).inode j = (idup s i).inode j := rfl
  apply LinkStep.linkInv (I := {i}) (N := {(s.inode i).inum}) _ hl
  constructor
  case inum =>
    rintro j rfl
    rw [hinode, idup_inode]
    rfl
  case other =>
    intro j (hj : j ≠ i)
    rw [hinode, idup_inode, if_neg hj]
    refine ⟨rfl, id, fun hj' =>
      h.table.inum_ne (lt_of_lt_of_le hj' (lasting_le h.table j)) hpos hj, ?_⟩
    have hsum := lasting_update s (s.bears p i) Ls p
      { Ls p with alive := true, cwd := some i } rfl j
    have hsame : ({ Ls p with alive := true, cwd := some i } : Loc).keeps j = (Ls p).keeps j := by
      apply Loc.keeps_congr
      · unfold Loc.holds
        rw [dead_cwd h ha]
        simp [Ne.symm hj]
      · exact Iff.rfl
    omega
  case dinode => exact fun _ _ => rfl
  case live =>
    rintro j rfl _
    rw [hinode, idup_inode]
    exact hl.live j (lt_of_lt_of_le (cwd_keeps h.table hi) (keeps_le_lasting s Ls q j))
  case unborn =>
    rintro r - m rfl
    exact hset.unborn r
  case born =>
    rintro r - j rfl
    exact hset.born r
  case alone =>
    intro r _ j st hs hst
    have hj : j ≠ i := by
      rintro rfl
      exact hset.freeing r st hs hst
    rw [hinode, idup_inode, if_neg hj]
    rfl
  case ownUnborn =>
    intro m t hm
    rw [hknow] at hm
    exact hm.elim
  case ownBorn =>
    intro j t hj
    rw [hknow] at hj
    exact hj.elim
  case ownAlone =>
    intro j st hs
    rw [hstage] at hs
    cases hs

/-! ## Changes of an inode that the process keeps -/

theorem not_unborn_of_backs (hb : (Ls p).Backs i) (he : ¬ (Ls p).Ends i) (q : Fin NPROC) (t : ℕ) :
    Fact.unborn (s.inode i).inum t ∉ (Ls q).know := by
  intro hu
  obtain ⟨-, -, hzero⟩ := (hl.proc q).unborn _ t hu
  have h0 := hzero i (h.backs_pos hb) rfl
  have hpos := backs_lasting_pos h hb he
  omega

theorem not_born_of_backs (hb : (Ls p).Backs i) (he : ¬ (Ls p).Ends i) (hq : q ≠ p) (t : ℕ) :
    Fact.born i t ∉ (Ls q).know := by
  intro hborn
  obtain ⟨hpos, -, hone, -⟩ := (hl.proc q).born i t hborn
  have hlt := backs_lasting h hb he (Ne.symm hq)
  have hle := keepsVar_le (p := q) (i := i) h.table
  omega

theorem not_freeing_of_backs (hb : (Ls p).Backs i) (hq : q ≠ p)
    (hs : (Ls q).stage = some (i, st)) : ¬ (st = .freeing ∨ st = .trunced) := by
  intro hst
  have hone := (hl.proc q).alone i st hs hst
  have htwo := h.backs_two hq ((h.table.proc q).stage i st hs).1 hb
  omega

/-- A change of an inode on the disk, or of its reference count, by a process that keeps it. -/
theorem link_of_backs (hb : (Ls p).Backs i) (he : ¬ (Ls p).Ends i)
    (hinum : ∀ j, (s'.inode j).inum = (s.inode j).inum)
    (href : ∀ j, j ≠ i → (s'.inode j).ref = (s.inode j).ref)
    (hlast : ∀ j, j ≠ i → lasting s' (update Ls p L') j = lasting s Ls j)
    (hdinode : ∀ m, m ≠ (s.inode i).inum → s'.dinode m = s.dinode m)
    (hlive : 0 < lasting s' (update Ls p L') i → (s'.dinode (s.inode i).inum).type ≠ 0)
    (hunborn : ∀ m t, Fact.unborn m t ∈ L'.know → Fact.unborn m t ∈ (Ls p).know)
    (hborn : ∀ j t, Fact.born j t ∈ L'.know → j ≠ i ∧ Fact.born j t ∈ (Ls p).know)
    (htype : ∀ j t, Fact.type j t ∈ L'.know → Fact.type j t ∈ (Ls p).know)
    (hrefs : ∀ j, j ≠ i → L'.refs.count j = (Ls p).refs.count j)
    (hstage : ∀ j st, j ≠ i → (L'.stage = some (j, st) ↔ (Ls p).stage = some (j, st)))
    (halone : ∀ st, L'.stage = some (i, st) → st = .freeing ∨ st = .trunced →
      (s'.inode i).ref = 1) : LinkInv s' (update Ls p L') := by
  have hends (j : Fin NINODE) (hj : j ≠ i) : L'.Ends j ↔ (Ls p).Ends j := by
    unfold Loc.Ends
    rw [hstage j _ hj, hstage j _ hj]
  apply LinkStep.linkInv (I := {i}) (N := {(s.inode i).inum}) _ hl
  constructor
  case inum =>
    rintro j rfl
    exact hinum j
  case other =>
    intro j hj
    rw [href j hj]
    exact ⟨hinum j, id, fun hpos =>
      h.table.inum_ne (lt_of_lt_of_le hpos (lasting_le h.table j)) (h.backs_pos hb) hj, hlast j hj⟩
  case dinode => exact hdinode
  case live =>
    rintro j rfl
    rw [hinum]
    exact hlive
  case unborn =>
    rintro q - m rfl
    exact not_unborn_of_backs h hl hb he q
  case born =>
    rintro q hq j rfl
    exact not_born_of_backs h hl hb he hq
  case alone =>
    intro q hq j st hs hst
    apply href
    rintro rfl
    exact not_freeing_of_backs h hl hb hq hs hst
  case ownUnborn =>
    intro m t hm
    have hm' := hunborn m t hm
    refine .inl ⟨hm', ?_⟩
    rintro rfl
    exact not_unborn_of_backs h hl hb he p t hm'
  case ownBorn =>
    intro j t hj
    obtain ⟨hne, hj'⟩ := hborn j t hj
    obtain ⟨hpos, -, -, htypes, hst⟩ := (hl.proc p).born j t hj'
    refine ⟨?_, fun u hu => htypes u (htype j u hu), ?_, fun _ => hj', fun h' => absurd h' hne⟩
    · rw [Loc.keepsVar_congr (hrefs j hne) (hends j hne)]
      exact hpos
    · intro st hs
      exact (hends j hne).mpr (hst st ((hstage j st hne).mp hs))
  case ownAlone =>
    intro j st hs hst
    by_cases hne : j = i
    · rw [hne] at hs ⊢
      exact halone st hs hst
    · rw [href j hne]
      exact (hl.proc p).alone j st ((hstage j st hne).mp hs) hst

theorem link_putMore (hr : i ∈ (Ls p).refs) (hs : (Ls p).stage = none) : LinkInv (s.unref i)
      (update Ls p ((Ls p).dropRef i)) := by
  have hnone : ((Ls p).dropRef i).stage = none := hs
  have he (j : Fin NINODE) : ¬ (Ls p).Ends j := Loc.not_ends_of_none hs
  have he' (j : Fin NINODE) : ¬ ((Ls p).dropRef i).Ends j := Loc.not_ends_of_none hnone
  have hlast (j : Fin NINODE) : lasting (s.unref i)
        (update Ls p ((Ls p).dropRef i)) j+(if j = i then 1 else 0) =
        lasting s Ls j := by
    have hsum := lasting_update s (s.unref i) Ls p ((Ls p).dropRef i) rfl j
    have hdrop := Loc.holds_dropRef hr j
    rw [Loc.keeps_of_not_ends (he j), Loc.keeps_of_not_ends (he' j)] at hsum
    omega
  apply link_of_backs h hl (.inl hr) (he i)
  · intro j
    rw [setRef_inode]
  · intro j hj
    rw [setRef_inode, if_neg hj]
  · intro j hj
    have hj' := hlast j
    rw [if_neg hj] at hj'
    exact hj'
  · exact fun _ _ => rfl
  · intro hpos
    apply hl.live i
    have hi := hlast i
    omega
  · exact fun m t hm => hm.1
  · intro j t hj
    refine ⟨?_, hj.1⟩
    -- a new inode has one reference, so its fact goes with it
    rintro rfl
    obtain ⟨-, -, hone, -⟩ := (hl.proc p).born j t hj.1
    rcases hj.2 with hmem | ⟨-, -, hne⟩
    · have hle := keeps_le_lasting s Ls p j
      have hdrop := Loc.holds_dropRef hr j
      have hpos := Loc.holds_pos (L := (Ls p).dropRef j) hmem
      rw [if_pos rfl] at hdrop
      rw [Loc.keeps_of_not_ends (he j)] at hle
      omega
    · exact hne t rfl
  · exact fun j t ht => ht.1
  · exact fun j hj => List.count_erase_of_ne hj
  · exact fun j st _ => Iff.rfl
  · intro st hst
    rw [hnone] at hst
    cases hst

theorem link_of_updated {d : Dnode} (hu : Updated s i d s') (hb : (Ls p).Backs i)
    (he : ¬ (Ls p).Ends i)
    (hlast : ∀ j, j ≠ i → lasting s' (update Ls p L') j = lasting s Ls j)
    (hlive : 0 < lasting s' (update Ls p L') i → d.type ≠ 0)
    (hknow : L'.know ⊆ (Ls p).know) (hborn : ∀ t, Fact.born i t ∉ (Ls p).know)
    (hrefs : L'.refs = (Ls p).refs)
    (hstage : ∀ j st, j ≠ i → (L'.stage = some (j, st) ↔ (Ls p).stage = some (j, st)))
    (halone : ∀ st, L'.stage = some (i, st) → st = .freeing ∨ st = .trunced →
      (s.inode i).ref = 1) : LinkInv s' (update Ls p L') := by
  apply link_of_backs h hl hb he
  · intro j
    rw [hu.inode]
  · intro j _
    rw [hu.inode]
  · exact hlast
  · intro m hm
    rw [hu.dinode, if_neg hm]
  · rw [hu.dinode, if_pos rfl]
    exact hlive
  · exact fun m t hm => hknow hm
  · intro j t hj
    refine ⟨?_, hknow hj⟩
    rintro rfl
    exact hborn t (hknow hj)
  · exact fun j t ht => hknow ht
  · intro j _
    rw [hrefs]
  · exact hstage
  · rw [hu.inode]
    exact halone

theorem link_store {d : Dnode} {data : ℕ → UInt8} {K : Set Fact} (hi : i ∈ (Ls p).locks)
    (hs : (Ls p).stage = none) (ht : ∃ t, Fact.type i t ∈ (Ls p).know)
    (htype : d.type = (s.inode i).d.type) (hK : (Ls p).Forgets K) :
    LinkInv ((s.setData (s.inode i).inum data).iupdate i d)
      (update Ls p { Ls p with know := K }) := by
  obtain ⟨t, ht⟩ := ht
  apply link_of_updated h hl (updated_store s i d data) ((h.table.proc p).backed i hi)
    (Loc.not_ends_of_none hs)
  · intro j _
    refine lasting_eq ?_ ?_ j
    · exact fun _ _ => rfl
    · exact fun _ => Loc.keeps_congr rfl Iff.rfl
  · intro _
    obtain ⟨-, hdt, hne⟩ := h.typed_disk ht
    rw [htype, hdt]
    exact hne
  · exact hK.subset
  · exact fun u hj => ((hl.proc p).born i u hj).2.2.2.1 t ht
  · rfl
  · exact fun _ _ _ => Iff.rfl
  · exact fun _ hst => Loc.no_stage hs hst

omit h in
theorem not_born_of_freeing (hs : (Ls p).stage = some (i, st))
    (hst : st = .freeing ∨ st = .trunced) (t : ℕ) : Fact.born i t ∉ (Ls p).know :=
  fun hb => Loc.not_ends_of_freeing hs hst (((hl.proc p).born i t hb).2.2.2.2 st hs)

theorem link_trunc (hs : (Ls p).stage = some (i, .freeing)) : LinkInv (s.itrunc i)
      (update Ls p { Ls p with stage := some (i, .trunced) }) := by
  have hst : Stage.freeing = .freeing ∨ Stage.freeing = .trunced := .inl rfl
  apply link_of_updated h hl (updated_store s i { (s.inode i).d with size := 0 } fun _ => 0)
    (.inl ((h.table.proc p).stage i _ hs).1) (Loc.not_ends_of_freeing hs hst)
  · intro j _
    refine lasting_eq ?_ ?_ j
    · exact fun _ _ => rfl
    intro j
    rw [Loc.keeps_of_not_ends (Loc.not_ends_of_freeing hs hst),
      Loc.keeps_of_not_ends (Loc.not_ends_of_freeing rfl (.inr rfl))]
    rfl
  · exact fun _ => (freeing_agrees h hs hst).2
  · exact subset_rfl
  · exact not_born_of_freeing hl hs hst
  · rfl
  · intro j st hj
    rw [hs]
    simp [Ne.symm hj]
  · exact fun _ _ _ => (hl.proc p).alone i _ hs hst

theorem link_free (hs : (Ls p).stage = some (i, .trunced)) :
    LinkInv (s.iupdate i { (s.inode i).d with type := 0 })
      (update Ls p { Ls p with stage := some (i, .freed) }) := by
  have hst : Stage.trunced = .freeing ∨ Stage.trunced = .trunced := .inr rfl
  have hr := ((h.table.proc p).stage i _ hs).1
  have hends (j : Fin NINODE) (hj : j ≠ i) :
      ¬ ({ Ls p with stage := some (i, .freed) } : Loc).Ends j := by
    unfold Loc.Ends
    simp [Ne.symm hj]
  have hself : ({ Ls p with stage := some (i, .freed) } : Loc).keeps i = (Ls p).holds i-1 := by
    unfold Loc.keeps
    rw [if_pos (.inl rfl)]
    rfl
  have hsum (j : Fin NINODE) := lasting_update s (s.iupdate i { (s.inode i).d with type := 0 })
    Ls p { Ls p with stage := some (i, .freed) } rfl j
  have hkeeps (j : Fin NINODE) := Loc.keeps_of_not_ends (Loc.not_ends_of_freeing (i := j) hs hst)
  apply link_of_updated h hl (updated_iupdate s i _) (.inl hr) (Loc.not_ends_of_freeing hs hst)
  · intro j hj
    have hj' := hsum j
    rw [hkeeps j, Loc.keeps_of_not_ends (hends j hj)] at hj'
    exact Nat.add_right_cancel hj'
  · -- the only reference goes with the inode
    intro hpos
    have hi := hsum i
    have hone := (hl.proc p).alone i _ hs hst
    have hle := lasting_le h.table i
    have hholds := Loc.holds_pos hr
    rw [hkeeps i] at hi
    omega
  · exact subset_rfl
  · exact not_born_of_freeing hl hs hst
  · rfl
  · intro j st hj
    rw [hs]
    simp [Ne.symm hj]
  · intro st hst' hst
    cases hst'
    rcases hst with h' | h' <;> cases h'

omit h in
theorem link_ialloc (dp : Fin NINODE) (hn : (s.dinode n).type = 0) (ht : t ≠ 0) :
    LinkInv (s.ialloced n t) (update Ls p ((Ls p).allocs n dp t)) := by
  have hlast (j : Fin NINODE) : lasting (s.ialloced n t) (update Ls p ((Ls p).allocs n dp t)) j =
        lasting s Ls j := by
    refine lasting_eq ?_ ?_ j
    · exact fun _ _ => rfl
    · exact fun _ => Loc.keeps_congr rfl Iff.rfl
  have hother {j : Fin NINODE} (hj : 0 < lasting s Ls j) : (s.inode j).inum ≠ n := by
    rintro rfl
    exact hl.live j hj hn
  have hfree (q : Fin NPROC) (u : ℕ) : Fact.unborn n u ∉ (Ls q).know := by
    intro hu
    obtain ⟨hne, hd, -⟩ := (hl.proc q).unborn n u hu
    rw [hd] at hn
    exact hne hn
  apply LinkStep.linkInv (I := ∅) (N := {n}) _ hl
  constructor
  case inum => exact fun _ => False.elim
  case other => exact fun j _ => ⟨rfl, id, hother, hlast j⟩
  case dinode => exact fun m hm => update_of_ne hm ..
  case live => exact fun _ => False.elim
  case unborn =>
    rintro q - m rfl
    exact hfree q
  case born => exact fun _ _ _ => False.elim
  case alone => exact fun _ _ _ _ _ _ => rfl
  case ownUnborn =>
    intro m u hm
    rcases hm with h' | h' | h'
    · cases h'
      refine .inr ⟨rfl, ht, update_self .., ?_⟩
      intro j _ hj
      rw [hlast]
      by_contra hpos
      exact hother (Nat.pos_of_ne_zero hpos) hj
    · cases h'
    · refine .inl ⟨h', ?_⟩
      rintro rfl
      exact hfree p u h'
  case ownBorn =>
    intro j u hj
    have hknow {φ : Fact} (hφ : φ ∈ ((Ls p).allocs n dp t).know) (hne : ∀ m v, φ ≠ .unborn m v)
        (hne' : ∀ m d v, φ ≠ .newborn m d v) : φ ∈ (Ls p).know := by
      rcases hφ with h' | h' | h'
      · exact absurd h' (hne _ _)
      · exact absurd h' (hne' _ _ _)
      · exact h'
    have hj' := hknow hj (by simp) (by simp)
    obtain ⟨hpos, -, -, htype, hstage⟩ := (hl.proc p).born j u hj'
    refine ⟨?_, fun v hv => htype v (hknow hv (by simp) (by simp)), hstage, fun _ => hj', False.elim⟩
    rw [Loc.keepsVar_congr rfl Iff.rfl]
    exact hpos
  case ownAlone => exact (hl.proc p).alone

end Steps

/-! ## Effects that leave the lasting references alone -/

/-- A fact about a new inode, or about the type that a loaded one has. -/
def Fact.OfBirth : Fact → Prop
  | .unborn _ _ | .born _ _ | .type _ _ => True
  | _ => False

theorem Seen.not_ofBirth {φ : Fact} (h : Seen s L φ) : ¬ φ.OfBirth := by
  cases φ <;> first | exact id | exact h.elim

theorem setInode_counts (ip : Inode) (hinum : ip.inum = (s.inode i).inum)
    (href : ip.ref = (s.inode i).ref) (j : Fin NINODE) :
    ((s.setInode i ip).inode j).inum = (s.inode j).inum ∧
      ((s.setInode i ip).inode j).ref = (s.inode j).ref := by
  rw [setInode_inode]
  split_ifs with hj
  · rw [hj]
    exact ⟨hinum, href⟩
  · exact ⟨rfl, rfl⟩

section Frame
variable (h : Inv md s Ls) (hl : LinkInv s Ls)
include hl

/-- What lasts is as before. -/
theorem link_kept (hdinode : s'.dinode = s.dinode)
    (hinum : ∀ j, (s'.inode j).inum = (s.inode j).inum)
    (hpos : ∀ j, 0 < (s'.inode j).ref → 0 < (s.inode j).ref)
    (hlast : ∀ j, lasting s' (update Ls p L') j = lasting s Ls j)
    (hothers : ∀ q ≠ p, ∀ j st, (Ls q).stage = some (j, st) → st = .freeing ∨ st = .trunced →
      (s'.inode j).ref = (s.inode j).ref)
    (hunborn : ∀ m t, Fact.unborn m t ∈ L'.know → Fact.unborn m t ∈ (Ls p).know)
    (hborn : ∀ j t, Fact.born j t ∈ L'.know → Fact.born j t ∈ (Ls p).know ∧ 0 < L'.keepsVar j ∧
      (∀ u, Fact.type j u ∉ L'.know) ∧ ∀ st, L'.stage = some (j, st) → L'.Ends j)
    (halone : ∀ j st, L'.stage = some (j, st) → st = .freeing ∨ st = .trunced →
      (s'.inode j).ref = 1) : LinkInv s' (update Ls p L') := by
  apply LinkStep.linkInv (I := ∅) (N := ∅) _ hl
  constructor
  case inum => exact fun _ => False.elim
  case other => exact fun j _ => ⟨hinum j, hpos j, fun _ => id, hlast j⟩
  case dinode => exact fun m _ => congrFun hdinode m
  case live => exact fun _ => False.elim
  case unborn => exact fun _ _ _ => False.elim
  case born => exact fun _ _ _ => False.elim
  case alone => exact hothers
  case ownUnborn => exact fun m t hm => .inl ⟨hunborn m t hm, id⟩
  case ownBorn =>
    intro j t hj
    obtain ⟨hold, hvar, htype, hstage⟩ := hborn j t hj
    exact ⟨hvar, htype, hstage, fun _ => hold, False.elim⟩
  case ownAlone => exact halone

theorem link_same (hdinode : s'.dinode = s.dinode)
    (hinode : ∀ j, (s'.inode j).inum = (s.inode j).inum ∧ (s'.inode j).ref = (s.inode j).ref)
    (hlast : ∀ j, lasting s' (update Ls p L') j = lasting s Ls j)
    (hstage : L'.stage = (Ls p).stage)
    (hunborn : ∀ m t, Fact.unborn m t ∈ L'.know → Fact.unborn m t ∈ (Ls p).know)
    (hborn : ∀ j t, Fact.born j t ∈ L'.know → Fact.born j t ∈ (Ls p).know ∧
      (0 < (Ls p).keepsVar j → 0 < L'.keepsVar j) ∧
      ∀ u, Fact.type j u ∈ L'.know → Fact.type j u ∈ (Ls p).know) :
    LinkInv s' (update Ls p L') := by
  apply link_kept hl hdinode
  · exact fun j => (hinode j).1
  · intro j hj
    rw [(hinode j).2] at hj
    exact hj
  · exact hlast
  · exact fun q _ j st _ _ => (hinode j).2
  · exact hunborn
  · intro j t hj
    obtain ⟨hold, hvar, htype⟩ := hborn j t hj
    obtain ⟨hpos, -, -, hno, hst⟩ := (hl.proc p).born j t hold
    refine ⟨hold, hvar hpos, fun u hu => hno u (htype u hu), ?_⟩
    unfold Loc.Ends at hst ⊢
    rw [hstage]
    exact hst
  · intro j st hs hst
    rw [hstage] at hs
    rw [(hinode j).2]
    exact (hl.proc p).alone j st hs hst

theorem link_know (hdinode : s'.dinode = s.dinode)
    (hinode : ∀ j, (s'.inode j).inum = (s.inode j).inum ∧ (s'.inode j).ref = (s.inode j).ref)
    (hfiles : ∀ f j, fileHolds (s'.file f) j = fileHolds (s.file f) j)
    (hrefs : L'.refs = (Ls p).refs) (hcwd : L'.cwd = (Ls p).cwd)
    (hstage : L'.stage = (Ls p).stage)
    (hknow : ∀ φ ∈ L'.know, φ.OfBirth → φ ∈ (Ls p).know) :
    LinkInv s' (update Ls p L') := by
  have hends (j : Fin NINODE) : L'.Ends j ↔ (Ls p).Ends j := Loc.ends_of_stage hstage
  have hkeeps (j : Fin NINODE) : L'.keeps j = (Ls p).keeps j := by
    apply Loc.keeps_congr _ (hends j)
    unfold Loc.holds
    rw [hrefs, hcwd]
  apply link_same hl hdinode hinode (lasting_eq hfiles hkeeps) hstage
  · exact fun m t hm => hknow _ hm trivial
  intro j t hj
  refine ⟨hknow _ hj trivial, ?_, fun u hu => hknow _ hu trivial⟩
  rw [Loc.keepsVar_congr (by rw [hrefs]) (hends j)]
  exact id

include h in
theorem link_putLast (hr : i ∈ (Ls p).refs) (hs : (Ls p).stage = none)
    (href : (s.inode i).ref = 1) :
    LinkInv (s.setInode i { s.inode i with lock := some p }) (update Ls p ((Ls p).starts i)) := by
  have hinode := setInode_counts (s := s) (i := i) { s.inode i with lock := some p } rfl rfl
  have hends (j : Fin NINODE) : ¬ (((Ls p).starts i) : Loc).Ends j :=
    Loc.not_ends_of_freeing rfl (.inl rfl)
  have hnone (j : Fin NINODE) : ¬ (Ls p).Ends j := Loc.not_ends_of_none hs
  apply link_kept hl
  · rfl
  · exact fun j => (hinode j).1
  · intro j hj
    rwa [(hinode j).2] at hj
  · refine lasting_eq (fun _ _ => rfl) fun j => ?_
    rw [Loc.keeps_of_not_ends (hends j), Loc.keeps_of_not_ends (hnone j)]
    rfl
  · exact fun q _ j st _ _ => (hinode j).2
  · exact fun m t hm => hm.1
  · intro j t hj
    have hne : j ≠ i := by
      rintro rfl
      rcases hj.2 with hmem | ⟨-, -, hne⟩
      · exact not_mem_erase h href hmem
      · exact hne t rfl
    obtain ⟨hpos, -, -, hno, -⟩ := (hl.proc p).born j t hj.1
    refine ⟨hj.1, ?_, fun u hu => hno u hu.1, ?_⟩
    · rw [Loc.keepsVar_of_not_ends (hnone j)] at hpos
      rw [Loc.keepsVar_of_not_ends (hends j)]
      exact hpos
    · intro st hst
      cases hst
      exact absurd rfl hne
  · intro j st hst _
    cases hst
    rw [(hinode i).2]
    exact href

theorem link_invalidate (hs : (Ls p).stage = some (i, .freed)) : LinkInv (s.invalidate i)
      (update Ls p ((Ls p).finishes i)) := by
  have hinode := setInode_counts (s := s) (i := i)
    { s.inode i with valid := false, lock := none } rfl rfl
  have hends (j : Fin NINODE) : (((Ls p).finishes i) : Loc).Ends j ↔ (Ls p).Ends j := by
    unfold Loc.Ends
    simp [hs]
  apply link_kept hl
  · rfl
  · exact fun j => (hinode j).1
  · intro j hj
    rwa [(hinode j).2] at hj
  · exact lasting_eq (fun _ _ => rfl) fun j => Loc.keeps_congr rfl (hends j)
  · exact fun q _ j st _ _ => (hinode j).2
  · exact fun m t hm => hm
  · intro j t hj
    obtain ⟨hpos, -, -, hno, -⟩ := (hl.proc p).born j t hj
    refine ⟨hj, ?_, hno, ?_⟩
    · rw [Loc.keepsVar_congr ?_ (hends j)]
      · exact hpos
      · rfl
    · intro st hst
      cases hst
      exact .inr rfl
  · intro j st hst hfree
    cases hst
    rcases hfree with h' | h' <;> cases h'

include h in
theorem link_drop (hs : (Ls p).stage = some (i, .dropping)) : LinkInv (s.unref i)
      (update Ls p { (Ls p).dropRef i with stage := none }) := by
  have hr := ((h.table.proc p).stage i _ hs).1
  have hends (j : Fin NINODE) : ¬ ({ (Ls p).dropRef i with stage := none } : Loc).Ends j :=
    Loc.not_ends_of_none rfl
  have hiff (j : Fin NINODE) : (Ls p).Ends j ↔ j = i := by
    unfold Loc.Ends
    simp [hs, eq_comm]
  have hvar (j : Fin NINODE) :
      ({ (Ls p).dropRef i with stage := none } : Loc).keepsVar j = (Ls p).keepsVar j := by
    rw [Loc.keepsVar_of_not_ends (hends j)]
    unfold Loc.keepsVar Loc.dropRef
    simp only [hiff]
    by_cases hj : j = i
    · rw [hj, List.count_erase_self, if_pos rfl]
    · rw [List.count_erase_of_ne hj, if_neg hj, Nat.sub_zero]
  apply link_kept hl
  · rfl
  · intro j
    rw [setRef_inode]
  · intro j hj
    rw [setRef_inode] at hj
    dsimp only at hj
    split_ifs at hj with hji
    · rw [hji]
      omega
    · exact hj
  · refine lasting_eq (fun _ _ => rfl) fun j => ?_
    have hdrop := Loc.holds_dropRef hr j
    unfold Loc.keeps
    simp only [hiff]
    change ((Ls p).dropRef i).holds j = _
    omega
  · intro q hq j st hst hfree
    have hne : j ≠ i := by
      rintro rfl
      exact not_freeing_of_backs h hl (.inl hr) hq hst hfree
    rw [setRef_inode, if_neg hne]
  · exact fun m t hm => hm.1
  · intro j t hj
    obtain ⟨hpos, -, -, hno, -⟩ := (hl.proc p).born j t hj.1
    refine ⟨hj.1, ?_, fun u hu => hno u hu.1, ?_⟩
    · rw [hvar]
      exact hpos
    · intro st hst
      cases hst
  · intro j st hst
    cases hst

theorem link_takeCwd (hc : (Ls p).cwd = some i) :
    LinkInv s (update Ls p { (Ls p).addRef i with cwd := none }) := by
  refine link_same hl ?_ ?_ ?_ ?_ ?_ ?_
  · rfl
  · exact fun _ => ⟨rfl, rfl⟩
  · exact lasting_eq (fun _ _ => rfl) fun j => Loc.keeps_congr (Loc.holds_takeCwd hc j) Iff.rfl
  · rfl
  · exact fun _ _ hm => hm
  · intro j t hj
    refine ⟨hj, ?_, fun _ hu => hu⟩
    intro hpos
    exact lt_of_lt_of_le hpos (Loc.keepsVar_mono List.count_le_count_cons rfl)

theorem link_setCwd (hc : (Ls p).cwd = none) (hr : i ∈ (Ls p).refs) (hs : (Ls p).stage = none) :
    LinkInv (s.setProc p { s.proc p with cwd := some i })
      (update Ls p { (Ls p).dropRef i with cwd := some i }) := by
  have hs' : ({ (Ls p).dropRef i with cwd := some i } : Loc).stage = none := hs
  refine link_same hl ?_ ?_ ?_ ?_ ?_ ?_
  · rfl
  · exact fun _ => ⟨rfl, rfl⟩
  · refine lasting_eq (fun _ _ => rfl) fun j => ?_
    rw [Loc.keeps_of_not_ends (Loc.not_ends_of_none hs),
      Loc.keeps_of_not_ends (Loc.not_ends_of_none hs'), Loc.holds_setCwd hc hr]
  · rfl
  · exact fun _ _ hm => hm.1
  · intro j t hj
    refine ⟨hj.1, Loc.keepsVar_erase hs hs' rfl ?_, fun _ hu => hu.1⟩
    rintro rfl
    rcases hj.2 with hmem | ⟨-, -, hne⟩
    · exact hmem
    · exact absurd rfl (hne t)

theorem link_openFile {f : Fin NFILE} {fl : OpenFile} (hf : (s.file f).type = .FD_NONE)
    (hs : (Ls p).stage = none) (hr : i ∈ (Ls p).refs)
    (ht : Fact.type i t ∈ (Ls p).know) (hfl : IsInode fl) (hip : fl.ip = i) :
    LinkInv (s.setFile f fl) (update Ls p ((Ls p).opens f i fl.writable)) := by
  have hs' : ((Ls p).opens f i fl.writable).stage = none := hs
  refine link_same hl ?_ ?_ ?_ ?_ ?_ ?_
  · rfl
  · exact fun _ => ⟨rfl, rfl⟩
  · intro j
    have hloc := total_loc (·.keeps j) s Ls j p ((Ls p).opens f i fl.writable)
    have hfile := total_file (·.keeps j) s (update Ls p ((Ls p).opens f i fl.writable)) j f fl
    have hnone : fileHolds (s.file f) j = 0 := by
      simp [fileHolds, IsInode, hf]
    have hone : fileHolds fl j = if j = i then 1 else 0 := by
      unfold fileHolds
      rw [hip]
      simp [hfl, eq_comm]
    have hholds := Loc.holds_dropRef hr j
    have hopens : ((Ls p).opens f i fl.writable).holds j = ((Ls p).dropRef i).holds j := rfl
    rw [Loc.keeps_of_not_ends (Loc.not_ends_of_none hs),
      Loc.keeps_of_not_ends (Loc.not_ends_of_none hs')] at hloc
    unfold lasting
    omega
  · rfl
  · intro m u hm
    rcases Set.mem_insert_iff.mp hm with h' | h'
    · cases h'
    · exact h'.1
  · intro j u hj
    rcases Set.mem_insert_iff.mp hj with h' | h'
    · cases h'
    refine ⟨h'.1, Loc.keepsVar_erase hs hs' rfl ?_, ?_⟩
    · -- the inode is loaded, so it is no new one
      rintro rfl
      exact absurd ht (((hl.proc p).born j u h'.1).2.2.2.1 t)
    · intro v hv
      rcases Set.mem_insert_iff.mp hv with hv' | hv'
      · cases hv'
      · exact hv'.1

include h in
theorem link_dropLast (f : Fin NFILE) :
    LinkInv (s.closeFile f) (update Ls p ((Ls p).closes f (inodesOf (s.file f)))) := by
  refine link_same hl ?_ ?_ ?_ ?_ ?_ ?_
  · rfl
  · exact fun _ => ⟨rfl, rfl⟩
  · intro j
    exact total_dropLast (Loc.keeps_add (Loc.holds_closes _ _ _ _) rfl h.table.ends_mem)
  · rfl
  · exact fun _ _ hm => hm.1.1
  · intro j t hj
    refine ⟨hj.1.1, ?_, fun _ hu => hu.1.1⟩
    intro hpos
    refine lt_of_lt_of_le hpos (Loc.keepsVar_mono ?_ rfl)
    rw [Loc.closes, count_inodesOf]
    exact Nat.le_add_right _ _

end Frame

theorem LinkInv.effect {Ls' : Locs} (hc : md.careful) (h : Inv md s Ls) (hl : LinkInv s Ls)
    (he : Effect md p s Ls s' Ls') : LinkInv s' Ls' := by
  -- for effects on locks, contents of files and descriptors
  have hfiles {f : Fin NFILE} {fl : OpenFile} (htype : fl.type = (s.file f).type)
      (hip : fl.ip = (s.file f).ip) (g : Fin NFILE) (j : Fin NINODE) :
      fileHolds ((s.setFile f fl).file g) j = fileHolds (s.file g) j := by
    rw [setFile_file]
    split_ifs with hg
    · simp only [fileHolds, IsInode, htype, hip, hg]
    · rfl
  cases he with
  | forget K hK =>
    exact link_know hl rfl (fun _ => ⟨rfl, rfl⟩) (fun _ _ => rfl) rfl rfl rfl
      fun _ hψ _ => hK.subset hψ
  | learn φ _ hφ =>
    refine link_know hl rfl (fun _ => ⟨rfl, rfl⟩) (fun _ _ => rfl) rfl rfl rfl ?_
    intro ψ hψ hbirth
    rcases Set.mem_insert_iff.mp hψ with rfl | hψ
    · exact absurd hbirth hφ.not_ofBirth
    · exact hψ
  | loaded i =>
    refine link_same hl rfl (fun _ => ⟨rfl, rfl⟩) ?_ rfl ?_ ?_
    · exact lasting_eq (fun _ _ => rfl) fun _ => Loc.keeps_congr rfl Iff.rfl
    · intro m t hm
      rcases hm with h' | h'
      · cases h'
      · exact h'.1
    · intro j t hj
      rcases hj with h' | ⟨hj, hne⟩
      · cases h'
      · refine ⟨hj, id, ?_⟩
        intro u hu
        rcases hu with h' | hu
        · cases h'
          exact absurd rfl (hne t)
        · exact hu.1
  | hold new i n _ hr hn hmay => exact link_hold h hl new hr hn (hmay hc)
  | recycle new i n _ hr hn _ hmay => exact link_recycle h hl new hr hn (hmay hc)
  | acquire | load =>
    exact link_know hl rfl (setInode_counts _ rfl rfl) (fun _ _ => rfl) rfl rfl rfl
      fun _ hψ _ => hψ
  | unlock i =>
    exact link_know hl rfl (setInode_counts _ rfl rfl) (fun _ _ => rfl) rfl rfl rfl
      fun _ hψ _ => hψ.1
  | putMore i _ hr hs => exact link_putMore h hl hr hs
  | putLast i _ hr hs href => exact link_putLast h hl hr hs href
  | store i d data K hlk hs ht htype hK => exact link_store h hl hlk hs ht htype hK
  | trunc i _ hs => exact link_trunc h hl hs
  | free i _ hs => exact link_free h hl hs
  | invalidate i _ hs => exact link_invalidate hl hs
  | drop i _ hs => exact link_drop h hl hs
  | ialloc dp n t _ hn ht => exact link_ialloc hl dp hn ht
  | seek | dupFd =>
    exact link_know hl rfl (fun _ => ⟨rfl, rfl⟩) (hfiles rfl rfl) rfl rfl rfl fun _ hψ _ => hψ
  | filealloc f =>
    refine link_know hl rfl (fun _ => ⟨rfl, rfl⟩) (hfiles rfl rfl) rfl rfl rfl ?_
    intro ψ hψ hbirth
    rcases Set.mem_insert_iff.mp hψ with rfl | hψ
    · exact hbirth.elim
    · exact hψ
  | fdalloc | clearFd =>
    exact link_know hl rfl (fun _ => ⟨rfl, rfl⟩) (fun _ _ => rfl) rfl rfl rfl fun _ hψ _ => hψ
  | openFile f i fl _ hf _ hs hr _ ht _ hfl hip =>
    have hnone := ((h.files.proc p).fresh f hf).2.1
    exact link_openFile hl hnone hs hr ht hfl hip
  | dropFile f =>
    exact link_know hl rfl (fun _ => ⟨rfl, rfl⟩) (hfiles rfl rfl) rfl rfl rfl fun _ hψ _ => hψ.1.1
  | dropLast f => exact link_dropLast h hl f
  | takeFd | exitFd =>
    exact link_know hl rfl (fun _ => ⟨rfl, rfl⟩) (fun _ _ => rfl) rfl rfl rfl fun _ hψ _ => hψ.1
  | takeCwd i _ hcwd => exact link_takeCwd hl hcwd
  | setCwd i _ hcwd hr hs => exact link_setCwd hl hcwd hr hs
  | exit =>
    exact link_know hl rfl (fun _ => ⟨rfl, rfl⟩) (fun _ _ => rfl) rfl rfl rfl
      fun _ hψ _ => hψ.elim
  | born i ha hi =>
    obtain ⟨q, hq⟩ := hi
    exact link_born h hl ha hq

end Xv6.Inodes
