import Mathlib.Algebra.BigOperators.Fin
import Mathlib.Algebra.Order.BigOperators.Group.Finset

/-! Counting where things are: `loc x` is the thing at place `x`, if any, and `t q` counts the
places of `q`. Where the count is at most one, the place is unique. -/
namespace PlaceCount

variable {π π' ι : Type} {loc : π → Option ℕ} {loc' : π' → Option ℕ} {s t : ℕ → ℕ}

structure Tallies (loc : π → Option ℕ) (t : ℕ → ℕ) : Prop where
  exists_iff : ∀ q, 0 < t q ↔ ∃ x, loc x = some q
  unique : ∀ q, t q ≤ 1 → ∀ x y, loc x = some q → loc y = some q → x = y

theorem Tallies.exists_unique (h : Tallies loc t) {q : ℕ} (hq : t q = 1) : ∃! x, loc x = some q := by
  obtain ⟨x,hx⟩ := (h.exists_iff q).mp (by omega)
  exact ⟨x, hx, fun y hy => h.unique q (by omega) y x hy hx⟩

theorem Tallies.sum (h : Tallies loc s) (h' : Tallies loc' t) :
    Tallies (Sum.elim loc loc') (fun q => s q+t q) := by
  have hpos : ∀ q x, loc x = some q → 0 < s q := fun q x hx => (h.exists_iff q).mpr ⟨x,hx⟩
  have hpos' : ∀ q y, loc' y = some q → 0 < t q := fun q y hy => (h'.exists_iff q).mpr ⟨y,hy⟩
  constructor
  · intro q
    constructor
    · intro hq
      by_cases hs : 0 < s q
      · obtain ⟨x,hx⟩ := (h.exists_iff q).mp hs
        exact ⟨Sum.inl x, hx⟩
      · obtain ⟨y,hy⟩ := (h'.exists_iff q).mp (by omega)
        exact ⟨Sum.inr y, hy⟩
    · rintro ⟨x | y,hx⟩
      · have := hpos q x hx
        omega
      · have := hpos' q y hx
        omega
  · rintro q hq (x | x) (y | y) hx hy
    · rw [h.unique q (by omega) x y hx hy]
    · have := hpos q x hx
      have := hpos' q y hy
      omega
    · have := hpos' q x hx
      have := hpos q y hy
      omega
    · rw [h'.unique q (by omega) x y hx hy]

theorem Tallies.family [Fintype ι] [DecidableEq ι] {loc : ι → π → Option ℕ} {t : ι → ℕ → ℕ}
    (h : ∀ i, Tallies (loc i) (t i)) :
    Tallies (fun x : ι × π => loc x.1 x.2) (fun q => ∑ i, t i q) := by
  have hle : ∀ i q, t i q ≤ ∑ j, t j q := fun i q =>
    Finset.single_le_sum (f := fun j => t j q) (fun _ _ => Nat.zero_le _) (Finset.mem_univ i)
  constructor
  · intro q
    constructor
    · intro hq
      obtain ⟨i,_,hi⟩ := Finset.exists_ne_zero_of_sum_ne_zero (Nat.ne_of_gt hq)
      obtain ⟨x,hx⟩ := ((h i).exists_iff q).mp (Nat.pos_of_ne_zero hi)
      exact ⟨(i,x), hx⟩
    · rintro ⟨⟨i,x⟩,hx⟩
      have := ((h i).exists_iff q).mpr ⟨x,hx⟩
      have := hle i q
      omega
  · rintro q hq ⟨i,x⟩ ⟨j,y⟩ hx hy
    have hi := ((h i).exists_iff q).mpr ⟨x,hx⟩
    have hj := ((h j).exists_iff q).mpr ⟨y,hy⟩
    have hij : i = j := by
      by_contra hne
      have hsum := Finset.add_sum_erase Finset.univ (fun j => t j q) (Finset.mem_univ i)
      have hrest := Finset.single_le_sum (f := fun j => t j q) (s := Finset.univ.erase i)
        (fun _ _ => Nat.zero_le _) (Finset.mem_erase.mpr ⟨Ne.symm hne, Finset.mem_univ j⟩)
      omega
    subst hij
    have := hle i q
    rw [(h i).unique q (by omega) x y hx hy]

theorem Tallies.list (l : List ℕ) : Tallies (fun n : ℕ => l[n]?) (fun q => l.count q) := by
  constructor
  · intro q
    rw [List.count_pos_iff, List.mem_iff_getElem?]
  · intro q hq x y hx hy
    have htwo : ∀ x y : ℕ, x < y → l[x]? = some q → l[y]? = some q → 2 ≤ l.count q := by
      intro x y hxy hx hy
      have hsplit : l = l.take y ++ l.drop y := (List.take_append_drop y l).symm
      have hfirst : q ∈ l.take y := by
        rw [List.mem_iff_getElem?]
        exact ⟨x, by rw [List.getElem?_take, if_pos hxy]; exact hx⟩
      have hsecond : q ∈ l.drop y := by
        rw [List.mem_iff_getElem?]
        exact ⟨0, by rw [List.getElem?_drop, Nat.add_zero]; exact hy⟩
      have h1 := List.count_pos_iff.mpr hfirst
      have h2 := List.count_pos_iff.mpr hsecond
      rw [hsplit, List.count_append]
      omega
    rcases Nat.lt_trichotomy x y with hlt | heq | hgt
    · have := htwo x y hlt hx hy
      omega
    · exact heq
    · have := htwo y x hgt hy hx
      omega

theorem Tallies.option (o : Option ℕ) : Tallies (fun _ : Unit => o)
    (fun q => o.elim 0 (fun r => if r = q then 1 else 0)) := by
  constructor
  · intro q
    cases o with
    | none => simp
    | some r =>
      by_cases hr : r = q
      · simp [hr]
      · simp [hr]
  · intro q _ x y _ _
    rfl

theorem Tallies.self (P : ℕ → Prop) [DecidablePred P] :
    Tallies (fun q => if P q then some q else none) (fun q => if P q then 1 else 0) := by
  constructor
  · intro q
    by_cases hq : P q
    · simp only [hq, if_true]
      exact ⟨fun _ => ⟨q, by rw [if_pos hq]⟩, fun _ => Nat.one_pos⟩
    · simp only [hq, if_false]
      constructor
      · intro h
        exact absurd h (Nat.lt_irrefl 0)
      · rintro ⟨x,hx⟩
        split_ifs at hx with hp
        rw [Option.some.inj hx] at hp
        exact absurd hp hq
  · intro q _ x y hx hy
    split_ifs at hx hy
    rw [Option.some.inj hx, Option.some.inj hy]

theorem Tallies.rename (h : Tallies loc t) (f : π' → π)
    (hsome : ∀ x q, loc' x = some q → loc (f x) = some q)
    (hsurj : ∀ y q, loc y = some q → ∃ x, loc' x = some q)
    (hinj : ∀ x y q, loc' x = some q → loc' y = some q → f x = f y → x = y) :
    Tallies loc' t := by
  constructor
  · intro q
    rw [h.exists_iff]
    constructor
    · rintro ⟨y,hy⟩
      exact hsurj y q hy
    · rintro ⟨x,hx⟩
      exact ⟨f x, hsome x q hx⟩
  · intro q hq x y hx hy
    exact hinj x y q hx hy (h.unique q hq (f x) (f y) (hsome x q hx) (hsome y q hy))

end PlaceCount
