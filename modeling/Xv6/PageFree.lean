import Xv6.PageMap

/-! `freewalk` returns every table of a tree without leaves, and `uvmfree` every page of a user page
table. -/
namespace Xv6
open StateOutcome RadixTree Function

section
variable {l : ℕ} {T : Node (Fin 512) (PageTree l)} {ph : Phys}

/-- A table whose entry `i` led to pages that have been freed, and is now cleared. -/
theorem Maps.dropChild {ph1 : Phys} {i : Fin 512} {t : PageTree l} (hm : Maps ph.mem (l+1) T)
    (hh : Holds ph (pages (l+1) T)) (ht : T.entry i = some t)
    (hmove : Moves ph ph1 (pages l t) (fun _ => 0)) :
    Maps (update ph1.mem T.page (update (ph1.mem T.page) i none)) (l+1) (T.set i none) ∧
      Moves ph { ph1 with
          mem := update ph1.mem T.page (update (ph1.mem T.page) i none) }
        (pages (l+1) T) (pages (l+1) (T.set i none)) := by
  have hchild := pages_child ht
  have hset : ∀ a, pages (l+1) (T.set i none) a+pages l t a = pages (l+1) T a := by
    intro a
    have := pages_set (T := T) (i := i) none a
    rw [ht, Option.elim_some, Option.elim_none] at this
    omega
  have hpage : ph1.mem T.page = ph.mem T.page := by
    apply hmove.outside
    have := hh.once T.page
    have := hchild T.page
    rw [if_pos rfl] at this
    omega
  have hroot := pages_root (l+1) T
  change 0 < pages (l+1) T T.page at hroot
  refine ⟨?_, ?_, ?_, hmove.endPage⟩
  · intro j
    change update ph1.mem T.page _ T.page j = _ ∧ _
    rw [update_self, hpage]
    by_cases hj : j = i
    · rw [hj, update_self, T.set_same]
      exact ⟨rfl, fun _ hn => absurd hn (by simp)⟩
    · rw [update_of_ne hj, T.set_other _ hj]
      refine ⟨(hm j).1, fun s hs => Maps.congr ((hm j).2 s hs) ?_⟩
      intro a ha
      have hsib := pages_siblings ht hs (Ne.symm hj) a
      have honce := hh.once a
      have hne : a ≠ T.page := by
        rintro rfl
        have := pages_child hs T.page
        rw [if_pos rfl] at this
        omega
      rw [update_of_ne hne]
      exact hmove.outside a (by omega)
  · intro a
    have := hset a
    have := hmove.count a
    dsimp only at this ⊢
    omega
  · intro a ha
    have hne : a ≠ T.page := by
      rintro rfl
      omega
    have := hchild a
    change update ph1.mem T.page _ a = _
    rw [update_of_ne hne]
    exact hmove.outside a (by omega)

theorem freeEntries_post (is : List (Fin 512)) (free : ℕ → Vm Unit)
    (hfree : ∀ (t : PageTree l) (ph : Phys), Maps ph.mem l t → Holds ph (pages l t) →
      NoLeaf l t → post (free (rootPage l t)) ph
        (fun _ ph' => Moves ph ph' (pages l t) (fun _ => 0)) never)
    (hm : Maps ph.mem (l+1) T) (hh : Holds ph (pages (l+1) T)) (hno : NoLeaf (l+1) T) :
    post (is.forM (freeEntry free T.page)) ph (fun _ ph' =>
      ∃ T' : Node (Fin 512) (PageTree l), T'.page = T.page ∧
        (∀ i, T'.entry i = if i ∈ is then none else T.entry i) ∧ Maps ph'.mem (l+1) T' ∧
        Moves ph ph' (pages (l+1) T) (pages (l+1) T')) never := by
  induction is generalizing ph T with
  | nil => exact ⟨T, rfl, by simp, hm, Moves.refl _ _⟩
  | cons i is ih =>
    have hone : post (freeEntry free T.page i) ph (fun _ ph' =>
        Maps ph'.mem (l+1) (T.set i none) ∧
        Moves ph ph' (pages (l+1) T) (pages (l+1) (T.set i none))) never := by
      have hentry := (hm i).1
      unfold freeEntry
      rw [post_bind, post_get]
      rw [hentry]
      cases ht : T.entry i with
      | none =>
        have hsame : T.set i none = T := by
          rw [Node.set, ← ht, update_eq_self]
        rw [hsame]
        exact ⟨hm, Moves.refl _ _⟩
      | some t =>
        have hht : Holds ph (pages l t) := hh.mono (fun a => by
          have := pages_child ht a
          omega)
        rw [Option.map_some]
        dsimp only [tablePte]
        apply post_bind_of (hfree t ph ((hm i).2 t ht) hht (hno i t ht))
        intro _ ph1 hmove
        exact hm.dropChild hh ht hmove
    apply post_bind_of hone
    rintro _ ph1 ⟨hm1,hmove1⟩
    have hno1 : NoLeaf (l+1) (T.set i none) := by
      intro j s hs
      by_cases hj : j = i
      · rw [hj, T.set_same] at hs
        exact absurd hs (by simp)
      · rw [T.set_other _ hj] at hs
        exact hno j s hs
    apply post_imp (ih hm1 (hmove1.holds hh) hno1)
    rintro _ ph2 ⟨T2,hpage,hentry,hm2,hmove2⟩
    refine ⟨T2, hpage, ?_, hm2, hmove1.trans hmove2⟩
    intro j
    rw [hentry j]
    by_cases hji : j = i
    · rw [hji, T.set_same]
      simp
    · rw [T.set_other _ hji]
      simp [hji]

end

theorem pages_cleared {l : ℕ} {T : Node (Fin 512) (PageTree l)} (h : ∀ i, T.entry i = none) :
    pages (l+1) T = single T.page := by
  funext a
  change nodeTally (pages l) T a = _
  simp [nodeTally, h, single]

theorem freeEntries_invalid (is : List (Fin 512)) (free : ℕ → Vm Unit) {q : ℕ} {ph : Phys}
    (h : ∀ i, ph.mem q i = none) :
    post (is.forM (freeEntry free q)) ph (fun _ ph' => ph' = ph) never := by
  induction is with
  | nil => rfl
  | cons i is ih =>
    have hone : post (freeEntry free q i) ph (fun _ ph' => ph' = ph) never := by
      unfold freeEntry
      rw [post_bind, post_get, h i]
      rfl
    apply post_bind_of hone
    rintro _ _ rfl
    exact ih

/-- `freewalk` of a tree without leaves gives every page of it back, and does not meet a
leaf. -/
theorem freewalk_post {l : ℕ} {T : PageTree l} {ph : Phys} (hm : Maps ph.mem l T)
    (hh : Holds ph (pages l T)) (hno : NoLeaf l T) :
    post (freewalk (l+1) (rootPage l T)) ph
      (fun _ ph' => Moves ph ph' (pages l T) (fun _ => 0)) never := by
  induction l generalizing ph with
  | zero =>
    have hmem : ∀ i, ph.mem (Node.page T) i = none := by
      intro i
      have hentry := hm i
      rw [hentry, hno i]
      rfl
    have hpages : pages 0 T = single (Node.page T) := by
      funext a
      change nodeTally (leafTally Leaf.owned) T a = _
      simp [nodeTally, single, show ∀ i, Node.entry T i = none from hno]
    apply post_bind_of (freeEntries_invalid pteIndices (freewalk 0) hmem)
    rintro _ _ rfl
    rw [hpages] at hh ⊢
    exact post_imp (kfree_post hh) (fun _ _ hq => hq.1)
  | succ l ih =>
    have hloop := freeEntries_post pteIndices (freewalk (l+1))
      (fun t ph => ih) hm hh hno
    apply post_bind_of hloop
    rintro _ ph1 ⟨T1,hpage,hentry,hm1,hmove1⟩
    have hlast : pages (l+1) T1 = single (Node.page T) := by
      rw [← hpage]
      apply pages_cleared
      intro i
      rw [hentry i, if_pos (by unfold pteIndices; exact List.mem_finRange i)]
    rw [hlast] at hmove1
    apply post_imp (kfree_post (hmove1.holds hh))
    rintro _ ph2 ⟨hmove2,_⟩
    exact hmove1.trans hmove2

/-- The tree has leaves only at the page numbers that `P` allows, each of the ownership that
belongs there: pages below the trapframe are owned, trapframe and trampoline are neither
owned nor open to user code. -/
def LeavesIn (P : ℕ → Prop) (T : PageTree 2) : Prop :=
  ∀ n a, n < NVPN → leafOf T n = some a →
    P n ∧ (a.own = true ↔ n < TFVPN) ∧ (a.u = true → n < TFVPN)

theorem noLeaf_of_leavesIn {T : PageTree 2} (h : LeavesIn (fun _ => False) T) : NoLeaf 2 T := by
  apply noLeaf_of_lookup px_digit
  intro k
  rw [lookup_eq_leafOf]
  by_contra hne
  obtain ⟨a,ha⟩ := Option.ne_none_iff_exists'.mp hne
  exact (h _ a (Nat.mod_lt _ (by decide)) ha).1

end Xv6
