import Xv6.InodeLinkSteps

/-! What the loops over a directory find, and what writing one entry does to the others. -/
namespace Xv6.Inodes

open Interleaving ByteFields

variable {md : Mode} {p : Fin NPROC} {s : State} {Ls : Locs} {L : Loc} {i : Fin NINODE}
  {data : ℕ → UInt8} {size : ℕ}

variable {off : ℕ}

theorem findEntry_some {name : Name} {n m o : ℕ}
    (h : findEntry data size name n off = some (some (m, o))) (hoff : off % DIRENTSIZE = 0) :
    o % DIRENTSIZE = 0 ∧ o+DIRENTSIZE ≤ size ∧ entryInum data o = m ∧ m ≠ 0 ∧
      entryName data o = name := by
  induction n generalizing off with
  | zero => cases h
  | succ n ih =>
    unfold findEntry at h
    split_ifs at h with hend hfound
    · cases h
      exact ⟨hoff, not_lt.mp hend, rfl, hfound.1, hfound.2⟩
    · apply ih h
      rw [Nat.add_mod_right]
      exact hoff

theorem findEmpty_some {n o : ℕ} (h : findEmpty data size n off = some o)
    (hoff : off % DIRENTSIZE = 0) (hle : off ≤ size) : o % DIRENTSIZE = 0 ∧ o ≤ size := by
  induction n generalizing off with
  | zero =>
    cases h
    exact ⟨hoff, hle⟩
  | succ n ih =>
    unfold findEmpty at h
    split_ifs at h with hend hempty
    · cases h
      exact ⟨hoff, hle⟩
    · apply ih h
      · rw [Nat.add_mod_right]
        exact hoff
      · exact not_lt.mp hend

/-! ## Writing an entry -/

/-- An entry lies in one block, so it is written as a whole or not at all. -/
theorem writeLoop_entry (ok : ℕ → Bool) (hoff : off % DIRENTSIZE = 0) :
    writeLoop ok DIRENTSIZE 0 off DIRENTSIZE = if ok 0 then DIRENTSIZE else 0 := by
  have hfits : min (DIRENTSIZE-0) (BSIZE-off % BSIZE) = DIRENTSIZE := by
    have hmod : off % BSIZE % DIRENTSIZE = 0 := by
      rw [Nat.mod_mod_of_dvd off (by decide), hoff]
    have hlt : off % BSIZE < BSIZE := Nat.mod_lt _ (by decide)
    simp only [DIRENTSIZE, BSIZE] at hmod hlt ⊢
    omega
  rw [writeLoop]
  by_cases hok : ok 0 = true
  · simp only [hok, if_true, hfits, Nat.zero_add, writeLoop, lt_irrefl, false_and, if_false,
      and_true]
    rfl
  · simp [hok]

theorem aligned_apart {off0 k : ℕ} (hoff : off % DIRENTSIZE = 0) (h0 : off0 % DIRENTSIZE = 0)
    (hne : off ≠ off0) (hk : k < DIRENTSIZE) :
    ¬ (off0 ≤ off+k ∧ off+k < off0+DIRENTSIZE) := by
  simp only [DIRENTSIZE] at *
  omega

theorem entry_congr {bytes : ℕ → UInt8} (h : ∀ k < DIRENTSIZE, data (off+k) = bytes k) :
    entryInum data off = direntInum bytes ∧ entryName data off = direntName bytes := by
  constructor
  · apply leSum_congr
    intro k hk
    exact h k (by simp only [DIRENTSIZE]; omega)
  · unfold entryName direntName
    congr 2
    funext j
    exact h _ (by have := j.isLt; simp only [DIRENTSIZE, DIRSIZ] at *; omega)

/-- The contents with the bytes of an entry written at `off`. -/
def withEntry (data : ℕ → UInt8) (off : ℕ) (bytes : ℕ → UInt8) : ℕ → UInt8 :=
  fun k => if off ≤ k ∧ k < off+DIRENTSIZE then bytes (k-off) else data k

theorem withEntry_self (data : ℕ → UInt8) (off : ℕ) (bytes : ℕ → UInt8) :
    entryInum (withEntry data off bytes) off = direntInum bytes ∧
      entryName (withEntry data off bytes) off = direntName bytes := by
  apply entry_congr
  intro k hk
  unfold withEntry
  rw [if_pos (by omega), Nat.add_sub_cancel_left]

theorem withEntry_other (data : ℕ → UInt8) {off0 : ℕ} (bytes : ℕ → UInt8) (hoff : off % DIRENTSIZE = 0)
    (h0 : off0 % DIRENTSIZE = 0) (hne : off ≠ off0) :
    entryInum (withEntry data off0 bytes) off = entryInum data off ∧
      entryName (withEntry data off0 bytes) off = entryName data off := by
  apply entry_congr
  intro k hk
  exact if_neg (aligned_apart hoff h0 hne hk)

theorem writei_entry (ok : ℕ → Bool) (d : Dnode) (data bytes : ℕ → UInt8)
    (hoff : off % DIRENTSIZE = 0) :
    (writei ok d data bytes off DIRENTSIZE).2 = (d, data) ∨ off ≤ d.size ∧
      (writei ok d data bytes off DIRENTSIZE).2 =
        ({ d with size := max d.size (off+DIRENTSIZE) }, withEntry data off bytes) := by
  unfold writei
  split_ifs with hrange hlarge
  · exact .inl rfl
  · exact .inl rfl
  have hle : off ≤ d.size := by
    by_contra hlt
    exact hrange (.inl (by omega))
  dsimp only
  rw [writeLoop_entry ok hoff]
  by_cases hok : ok 0 = true
  · rw [if_pos hok]
    refine .inr ⟨hle, Prod.ext ?_ rfl⟩
    split_ifs with hgrow
    · rw [max_eq_right (by omega)]
    · rw [max_eq_left (by omega)]
  · rw [if_neg hok, if_neg (by omega)]
    refine .inl (Prod.ext rfl ?_)
    funext k
    exact if_neg (by omega)

theorem dirChange_write {K : Set Fact} (ok : ℕ → Bool) (bytes : ℕ → UInt8)
    (hsize : (s.inode i).d.size % DIRENTSIZE = 0) (hoff : off % DIRENTSIZE = 0)
    (hnew : ∀ n, direntInum bytes = n → n ≠ 0 → direntName bytes ≠ dot →
      direntName bytes ≠ dotdot → (∃ t, Fact.newborn n i t ∈ L.know) ∨
        ∃ j t, Fact.num j n ∈ L.know ∧ Fact.type j t ∈ L.know ∧ t ≠ T_DIR)
    (hK : ∀ off n, Fact.named i off n ∉ K) :
    DirChange s L i (writei ok (s.inode i).d (s.data (s.inode i).inum) bytes off DIRENTSIZE).2.1
      (writei ok (s.inode i).d (s.data (s.inode i).inum) bytes off DIRENTSIZE).2.2 K := by
  rcases writei_entry ok (s.inode i).d (s.data (s.inode i).inum) bytes hoff with hw | ⟨hle, hw⟩
  · rw [hw]
    exact ⟨hsize, fun _ _ he => .inl he, fun o n hn => absurd hn (hK o n)⟩
  · rw [hw]
    refine ⟨?_, ?_, fun o n hn => absurd hn (hK o n)⟩
    · rcases max_choice (s.inode i).d.size (off+DIRENTSIZE) with hmax | hmax
      · rw [hmax]
        exact hsize
      · rw [hmax, Nat.add_mod_right]
        exact hoff
    · intro o n he
      by_cases ho : o = off
      · -- the new entry
        subst ho
        obtain ⟨hinum, hname⟩ := withEntry_self (s.data (s.inode i).inum) o bytes
        have hn := he.inum
        have hdot := he.dot
        have hdotdot := he.dotdot
        rw [hinum] at hn
        rw [hname] at hdot hdotdot
        exact .inr (hnew n hn he.used hdot hdotdot)
      · obtain ⟨hinum, hname⟩ :=
          withEntry_other (s.data (s.inode i).inum) bytes he.aligned hoff ho
        refine .inl ⟨he.aligned, ?_, hinum.symm.trans he.inum, he.used, ?_, ?_⟩
        · have hin := he.inside
          have hal := he.aligned
          simp only [DIRENTSIZE] at *
          omega
        · rw [← hname]
          exact he.dot
        · rw [← hname]
          exact he.dotdot

end Xv6.Inodes
