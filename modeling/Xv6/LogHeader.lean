import Xv6.LogCommit

/-! The header block as a list of block numbers: what `write_head` stores is what `read_head` finds. -/
namespace Xv6
open ByteFields

theorem setHeadFrom_length (h : Block) (i : ℕ) (lh : List ℕ) :
    getLE (setHeadFrom h i lh) 0 4 = getLE h 0 4 := by
  induction lh generalizing h i with
  | nil => rfl
  | cons b bs ih =>
    rw [setHeadFrom, ih, getLE_setLE_outside (by omega)]

theorem setHead_length (h : Block) (lh : List ℕ) (hl : lh.length < 2^32) :
    getLE (setHead h lh) 0 4 = lh.length := by
  rw [setHead, setHeadFrom_length, getLE_setLE_same (by decide)]
  exact Nat.mod_eq_of_lt hl

theorem setHeadFrom_before (h : Block) (i j : ℕ) (lh : List ℕ) (hj : j < i) :
    getLE (setHeadFrom h i lh) (4+4*j) 4 = getLE h (4+4*j) 4 := by
  induction lh generalizing h i with
  | nil => rfl
  | cons b bs ih =>
    rw [setHeadFrom, ih _ _ (by omega), getLE_setLE_outside (by omega)]

theorem setHeadFrom_entry (h : Block) (i : ℕ) (lh : List ℕ) (hb : ∀ b ∈ lh, b < 2^32)
    (hi : i+lh.length ≤ 255) (j : ℕ) (hj : j < lh.length) :
    getLE (setHeadFrom h i lh) (4+4*(i+j)) 4 = lh[j] := by
  induction lh generalizing h i j with
  | nil => simp at hj
  | cons b bs ih =>
    rw [List.length_cons] at hi hj
    rw [setHeadFrom]
    cases j with
    | zero =>
      rw [setHeadFrom_before _ _ _ _ (by omega), Nat.add_zero,
        getLE_setLE_same (by rw [BSIZE]; omega)]
      exact Nat.mod_eq_of_lt (hb b List.mem_cons_self)
    | succ j =>
      have hrec := ih (setLE h (4+4*i) 4 b) (i+1)
        (fun c hc => hb c (List.mem_cons_of_mem b hc)) (by omega) j (by omega)
      rw [show i+(j+1) = i+1+j from by omega, hrec, List.getElem_cons_succ]

theorem headEntries_setHead (h : Block) (lh : List ℕ) (hb : ∀ b ∈ lh, b < 2^32)
    (hl : lh.length ≤ 255) : headEntries (setHead h lh) = lh := by
  have hlen : headLength (setHead h lh) = lh.length := by
    rw [headLength, setHead_length h lh (by omega), if_pos (by omega)]
  apply List.ext_getElem
  · rw [headEntries, List.length_map, List.length_range, hlen]
  · intro j hj hj'
    have he := setHeadFrom_entry (setLE h 0 4 lh.length) 0 lh hb (by omega) j hj'
    rw [Nat.zero_add] at he
    simpa only [headEntries, List.getElem_map, List.getElem_range, setHead] using he

theorem headEntries_empty (h : Block) (hn : getLE h 0 4 = 0) : headEntries h = [] := by
  simp only [headEntries, headLength, hn]
  rfl

end Xv6
