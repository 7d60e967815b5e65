import Xv6.ProcTable
import Xv6.UserCopy

/-! Whole address spaces: a page table with the trampoline, the trapframe and the user pages below a
size. -/
namespace Xv6
open StateOutcome RadixTree Function

/-- The page numbers that may be mapped in an address space of `sz` bytes. -/
def spaceVpn (sz n : ℕ) : Prop := n < pgs sz ∨ n = TFVPN ∨ n = TFVPN+1

/-- The table at page `q`, in memory as the tree `T`, is that of a process of `sz` bytes. -/
structure Space (mem : ℕ → Page) (q sz : ℕ) (T : PageTree 2) : Prop where
  root : rootPage 2 T = q
  maps : Maps mem 2 T
  leaves : LeavesIn (spaceVpn sz) T
  top : leafOf T TFVPN ≠ none
  size : sz ≤ TRAPFRAME

theorem vpn_trapframe : TFVPN*PGSIZE = TRAPFRAME := by decide

theorem uvmcreate_post (ph : Phys) : post uvmcreate ph (fun r ph' => match r with
      | none => Moves ph ph' (fun _ => 0) (fun _ => 0)
      | some q => ∃ T, rootPage 2 T = q ∧ Maps ph'.mem 2 T ∧ (∀ n, leafOf T n = none) ∧
          Moves ph ph' (fun _ => 0) (pages 2 T)) never := by
  apply post_bind_of (kalloc_post ph)
  rintro r ph1 ⟨hend,hk⟩
  cases r with
  | none => exact Moves.same hend hk _
  | some q =>
    obtain ⟨hmem,hfree⟩ := hk
    rw [post_bind, fillPage, post_modify]
    refine ⟨emptyTable q 2, rootPage_empty _ _, Maps.empty (update_self _ _ _),
      fun _ => lookup_empty _ _ _, ?_, ?_, hend⟩
    · intro a
      rw [pages_empty, hfree, List.count_cons]
      simp only [beq_iff_eq]
      omega
    · intro a ha
      rw [hmem, update_idem]
      apply update_of_ne
      rintro rfl
      rw [hfree, List.count_cons_self] at ha
      omega

variable {T : PageTree 2} {ph : Phys}

/-- A page that belongs to the kernel or is held otherwise is mapped without being owned. -/
theorem mappages_foreign {n : ℕ} (a : Leaf) (ha : a.own = false)
    (hn : n < MAXVA/PGSIZE) (hm : Maps ph.mem 2 T) (hh : Holds ph (pages 2 T))
    (hnone : leafOf T n = none) :
    post (mappages (rootPage 2 T) (n*PGSIZE) PGSIZE a.ppn ⟨true,a.w,a.x,a.u⟩) ph
      (fun r ph' => ∃ T', Became ph ph' T T' ∧ ∀ m, m < NVPN →
        leafOf T' m = if r = true ∧ m = n then some a else leafOf T m)
      never := by
  apply post_mono (mappages_post a hn hm hh) _ (fun _ _ h => h.1 hnone)
  rintro r ph' ⟨T',hroot,hm',_,hcase⟩
  refine ⟨T', ⟨hroot, hm', ?_⟩, ?_⟩
  · cases r with
    | false => exact hcase.2
    | true => exact hcase.2.2.congr (fun c => by rw [leafTally_not_owned ha, Nat.add_zero]) (fun _ => rfl)
  · intro m hmv
    cases r with
    | false =>
      rw [hcase.1 m, if_neg (by simp)]
    | true =>
      rw [hcase.2.1 m hmv]
      simp

/-- A table whose pages are held and that has no leaves is taken apart. -/
theorem uvmfree_empty (hm : Maps ph.mem 2 T)
    (hh : Holds ph (pages 2 T)) (hnone : ∀ n, n < NVPN → leafOf T n = none) :
    post (uvmfree (rootPage 2 T) 0) ph
      (fun _ ph' => Moves ph ph' (pages 2 T) (fun _ => 0)) never := by
  apply uvmfree_post (by decide) hm hh
  intro n a hn ha
  rw [hnone n hn] at ha
  exact absurd ha (by simp)

theorem procPagetable_post (trapframe : ℕ) (hh : Holds ph (fun _ => 0)) :
    post (procPagetable trapframe) ph (fun r ph' => match r with
      | none => Moves ph ph' (fun _ => 0) (fun _ => 0)
      | some q => ∃ T, Space ph'.mem q 0 T ∧ Moves ph ph' (fun _ => 0) (pages 2 T))
      never := by
  apply post_bind_of (uvmcreate_post ph)
  intro r ph1 h1
  cases r with
  | none => exact h1
  | some q =>
    obtain ⟨T1,rfl,hm1,hnone1,hmove1⟩ := h1
    apply post_bind_of (mappages_foreign ⟨ph1.trampoline,false,true,false,false⟩ rfl
      (n := TFVPN+1) (by decide) hm1 (hmove1.holds hh) (hnone1 _))
    rintro ok ph2 ⟨T2,hb2,hleaf2⟩
    have hmove2 := hmove1.trans hb2.moves
    rw [← hb2.root]
    cases ok with
    | false =>
      have hfree := uvmfree_empty hb2.maps (hmove2.holds hh) (by
        intro n hn
        rw [hleaf2 n hn]
        exact hnone1 n)
      apply post_bind_of hfree
      rintro _ ph3 hmove3
      exact hmove2.trans hmove3
    | true =>
      apply post_bind_of (mappages_foreign ⟨trapframe,true,false,false,false⟩ rfl (n := TFVPN)
        (by decide) hb2.maps (hmove2.holds hh) (by
          rw [hleaf2 _ (by decide)]
          exact hnone1 _))
      rintro ok ph3 ⟨T3,hb3,hleaf3⟩
      have hmove3 := hmove2.trans hb3.moves
      cases ok with
      | true =>
        refine ⟨T3, ⟨hb3.root, hb3.maps, ?_, ?_, by decide⟩, hmove3⟩
        · intro n a hn ha
          rw [hleaf3 n hn, hleaf2 n hn, hnone1 n] at ha
          split_ifs at ha with h h'
          · rw [← Option.some.inj ha]
            exact ⟨Or.inr (Or.inl h.2), ⟨by simp, fun hlt => absurd hlt (by omega)⟩, by simp⟩
          · rw [← Option.some.inj ha]
            exact ⟨Or.inr (Or.inr h'.2), ⟨by simp, fun hlt => absurd hlt (by omega)⟩, by simp⟩
        · rw [hleaf3 _ (by decide)]
          simp
      | false =>
        rw [← hb3.root]
        have hunmap := uvmunmap_post false 1 (n := TFVPN+1) (by decide) hb3.maps
          (hmove3.holds hh) (by
            intro m a hle hlt ha
            obtain rfl : m = TFVPN+1 := by omega
            rw [hleaf3 _ (by decide), if_neg (by simp), hleaf2 _ (by decide)] at ha
            rw [← Option.some.inj ha])
        apply post_bind_of hunmap
        rintro _ ph4 ⟨T4,hb4,hleaf4⟩
        have hmove4 := hmove3.trans hb4.moves
        rw [← hb4.root]
        have hfree := uvmfree_empty hb4.maps (hmove4.holds hh) (by
          intro n hn
          rw [hleaf4 n hn]
          split_ifs with h
          · rfl
          · rw [hleaf3 n hn, if_neg (by simp), hleaf2 n hn, if_neg (by omega)]
            exact hnone1 n)
        apply post_bind_of hfree
        rintro _ ph5 hmove5
        exact hmove4.trans hmove5

/-- Everything that belongs to an address space is free afterwards. -/
theorem procFreepagetable_post {q sz : ℕ} (h : Space ph.mem q sz T) (hh : Holds ph (pages 2 T)) :
    post (procFreepagetable q sz) ph
      (fun _ ph' => Moves ph ph' (pages 2 T) (fun _ => 0)) never := by
  -- trampoline and trapframe lie above the pages that the table owns
  have hforeign : ∀ (S : PageTree 2) n, TFVPN ≤ n → LeavesIn (spaceVpn sz) S →
      ∀ m a, n ≤ m → m < n+1 → leafOf S m = some a → m < NVPN → a.own = false := by
    intro S n hn hS m a hle hlt ha hmv
    have hown := (hS m a hmv ha).2.1
    cases ho : a.own with
    | false => rfl
    | true => exact absurd (hown.mp ho) (by omega)
  have hstay : ∀ (S S' : PageTree 2) n, LeavesIn (spaceVpn sz) S →
      (∀ m, m < NVPN → leafOf S' m = if n ≤ m ∧ m < n+1 then none else leafOf S m) →
      LeavesIn (spaceVpn sz) S' := by
    intro S S' n hS hleaf m a hmv ha
    rw [hleaf m hmv] at ha
    split_ifs at ha
    exact hS m a hmv ha
  unfold procFreepagetable
  rw [← h.root, ← vpn_trapframe]
  apply post_bind_of (uvmunmap_post false 1 (n := TFVPN+1) (by decide) h.maps hh (by
    intro m a hle hlt ha
    exact hforeign T _ (by omega) h.leaves m a hle hlt ha (hlt.trans_le (by decide))))
  rintro _ ph1 ⟨T1,hb1,hleaf1⟩
  have hleaves1 := hstay T T1 _ h.leaves hleaf1
  rw [← hb1.root]
  apply post_bind_of (uvmunmap_post false 1 (n := TFVPN) (by decide) hb1.maps (hb1.holds hh) (by
    intro m a hle hlt ha
    exact hforeign T1 _ (by omega) hleaves1 m a hle hlt ha (hlt.trans_le (by decide))))
  rintro _ ph2 ⟨T2,hb2,hleaf2⟩
  have hleaves2 := hstay T1 T2 _ hleaves1 hleaf2
  have hb := hb1.trans hb2
  have hfree := uvmfree_post h.size hb.maps (hb.holds hh) (by
    intro n a hn ha
    obtain ⟨hvpn,hown⟩ := hleaves2 n a hn ha
    refine ⟨?_, hown⟩
    rcases hvpn with hlt | rfl | rfl
    · exact hlt
    · rw [hleaf2 _ hn] at ha
      exact absurd ha (by simp)
    · rw [hleaf2 _ hn, if_neg (by omega), hleaf1 _ hn] at ha
      exact absurd ha (by simp))
  rw [← hb2.root]
  exact post_imp hfree (fun _ _ => hb.moves.trans)

end Xv6
