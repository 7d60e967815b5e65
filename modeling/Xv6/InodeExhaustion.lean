import Xv6.InodeRuns

/-! `iget` panics if the inode has no entry and as many inodes are referenced as there are entries.
Processes can reach that with their current directories alone. -/
namespace Xv6.Inodes

open Interleaving

variable {md : Mode} {s : State} {Ls : Locs}

def referenced (s : State) : Finset ℕ :=
  (Finset.univ.filter fun i => 0 < (s.inode i).ref).image fun i => (s.inode i).inum

theorem mem_referenced {n : ℕ} :
    n ∈ referenced s ↔ ∃ i, 0 < (s.inode i).ref ∧ (s.inode i).inum = n := by
  simp [referenced]

theorem card_referenced (h : TableInv s Ls) :
    (referenced s).card = (Finset.univ.filter fun i => 0 < (s.inode i).ref).card := by
  apply Finset.card_image_of_injOn
  intro i hi j hj hij
  exact h.unique i j (Finset.mem_filter.mp hi).2 (Finset.mem_filter.mp hj).2 hij

theorem iget_stop_iff {n : ℕ} : iget s n = .stop "iget: no inodes" ↔
    n ∉ referenced s ∧ ∀ i, 0 < (s.inode i).ref := by
  unfold iget
  cases hfind : inodeIndices.find? fun i => (s.inode i).ref > 0 ∧ (s.inode i).inum = n with
  | some i =>
    have hi := List.find?_some hfind
    rw [decide_eq_true_eq] at hi
    constructor
    · intro h'
      cases h'
    · intro h'
      exact absurd (mem_referenced.mpr ⟨i, hi⟩) h'.1
  | none =>
    have hnot : n ∉ referenced s := by
      intro hn
      obtain ⟨i, hi⟩ := mem_referenced.mp hn
      exact List.find?_eq_none.mp hfind i (mem_inodeIndices i) (decide_eq_true hi)
    cases hfree : inodeIndices.find? fun i => (s.inode i).ref = 0 with
    | some i =>
      have hi := List.find?_some hfree
      rw [decide_eq_true_eq] at hi
      constructor
      · intro h'
        cases h'
      · intro h'
        have hpos := h'.2 i
        omega
    | none =>
      refine ⟨fun _ => ⟨hnot, ?_⟩, fun _ => rfl⟩
      intro i
      apply Nat.pos_of_ne_zero
      intro h0
      exact List.find?_eq_none.mp hfree i (mem_inodeIndices i) (decide_eq_true h0)

theorem full_iff (h : TableInv s Ls) :
    (∀ i, 0 < (s.inode i).ref) ↔ NINODE ≤ (referenced s).card := by
  rw [card_referenced h]
  constructor
  · intro hall
    rw [Finset.filter_true_of_mem fun i _ => hall i, Finset.card_univ, Fintype.card_fin]
  · intro hle i
    have hcard : (Finset.univ.filter fun i => 0 < (s.inode i).ref) = Finset.univ := by
      apply Finset.eq_univ_of_card
      exact le_antisymm ((Finset.card_le_univ _).trans (by rw [Fintype.card_fin])) hle
    have hi : i ∈ Finset.univ.filter fun i => 0 < (s.inode i).ref := by
      rw [hcard]
      exact Finset.mem_univ i
    exact (Finset.mem_filter.mp hi).2

theorem admittedRun_free (c : System) (es : List Event) : AdmittedRun ⟨False, False⟩ c es := by
  induction es generalizing c with
  | nil => trivial
  | cons e es ih =>
    refine ⟨?_, ih _⟩
    intro p x _
    unfold Config.Admitted
    split
    · trivial
    · next o k _ =>
      cases o with
      | iget n => exact False.elim
      | write f i bytes n => exact fun _ => False.elim
      | _ => trivial

/-- In every run of system calls, `iget` panics exactly when the inode is not in the table and
`NINODE` inodes are referenced. -/
theorem iget_panics_iff (img : Image) (es : List Event) (n : ℕ) :
    iget ((boot img).run es).state n = .stop "iget: no inodes" ↔
      n ∉ referenced ((boot img).run es).state ∧
        NINODE ≤ (referenced ((boot img).run es).state).card := by
  obtain ⟨Ls, hinv, -⟩ : WellTyped (rules ⟨False, False⟩) Loc.Idle (Inv ⟨False, False⟩)
    ((boot img).run es) := wellTyped_run False.elim (admittedRun_free _ _)
  rw [iget_stop_iff, full_iff hinv.table]

/-! ## Fifty current directories -/

def chainImage : Image where
  ninodes := 100
  dinode _ := ⟨T_DIR, 0, 0, 2, 48⟩
  data n := dirBytes [(dot, n), (dotdot, n-1), ([97], n+1)]
  root := rfl

def oneDeeper (k : ℕ) : List Event :=
  callOf (Fin.ofNat NPROC k) (.fork (Fin.ofNat NPROC (k+1))) 1++
    callOf (Fin.ofNat NPROC (k+1)) (.chdir [97]) 15

theorem iget_no_inodes : ((boot chainImage).run ((List.range NINODE).flatMap oneDeeper)).stopped =
      some "iget: no inodes" := by
  decide +kernel

end Xv6.Inodes
