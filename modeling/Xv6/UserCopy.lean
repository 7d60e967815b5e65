import Xv6.UserMem

/-! `uvmcopy` for fork, page faults on lazily allocated memory, and the copy routines that cause
them from inside the kernel. -/
namespace Xv6
open StateOutcome RadixTree

variable {T : PageTree 2} {ph : Phys} {n sz : ℕ}

/-- Another page table is not affected by what happens to this one. -/
theorem Became.other {ph' : Phys} {T' S : PageTree 2} (h : Became ph ph' T T')
    (hS : Maps ph.mem 2 S) (hh : Holds ph (fun a => pages 2 T a+pages 2 S a)) :
    Maps ph'.mem 2 S ∧ Holds ph' (fun a => pages 2 T' a+pages 2 S a) := by
  refine ⟨hS.congr ?_, (h.moves.frame (pages 2 S)).holds hh⟩
  intro a ha
  apply h.moves.outside
  have := hh.once a
  omega

theorem vpn_lt (h : n < TFVPN) : n*PGSIZE < MAXVA := by
  have hle : n*PGSIZE ≤ TFVPN*PGSIZE := Nat.mul_le_mul_right _ h.le
  exact hle.trans_lt (by decide)

/-- Some pages below number `lim` that were not mapped are mapped now, and owned. -/
def Filled (lim : ℕ) (T T' : PageTree 2) : Prop :=
  ∀ m, m < NVPN → leafOf T' m = leafOf T m ∨
    (leafOf T m = none ∧ m < lim ∧ ∃ a, leafOf T' m = some a ∧ a.own = true)

theorem Filled.refl (lim : ℕ) (T : PageTree 2) : Filled lim T T := fun _ _ => Or.inl rfl

theorem Filled.trans {lim : ℕ} {T1 T2 T3 : PageTree 2} (h : Filled lim T1 T2)
    (h' : Filled lim T2 T3) : Filled lim T1 T3 := by
  intro m hm
  rcases h' m hm with h2 | ⟨hnone,hlt,hnew⟩
  · rw [h2]
    exact h m hm
  · rcases h m hm with h1 | ⟨_,_,a,ha,_⟩
    · exact Or.inr ⟨h1 ▸ hnone, hlt, hnew⟩
    · rw [hnone] at ha
      exact absurd ha (by simp)

/-- The loop of `uvmcopy`: pages are copied from the table `S` to the table `T`. When memory
runs out, everything below the current page is unmapped again. -/
theorem copyLoop_post (cnt : ℕ) {S : PageTree 2} (hn : n+cnt ≤ TFVPN)
    (hS : Maps ph.mem 2 S) (hm : Maps ph.mem 2 T)
    (hh : Holds ph (fun a => pages 2 T a+pages 2 S a))
    (hnone : ∀ m, n ≤ m → m < TFVPN → leafOf T m = none)
    (hown : ∀ m a, m < n → leafOf T m = some a → a.own = true) :
    post (copyLoop (rootPage 2 S) (rootPage 2 T) cnt (n*PGSIZE)) ph (fun r ph' => ∃ T',
      Became ph ph' T T' ∧ if r then Filled (n+cnt) T T'
        else ∀ m, m < NVPN → leafOf T' m = if m < n then none else leafOf T m)
      never := by
  induction cnt generalizing ph T n with
  | zero =>
    refine ⟨T, Became.refl hm, ?_⟩
    exact Filled.refl _ T
  | succ cnt ih =>
    have hhT : Holds ph (pages 2 T) := hh.mono (fun a => by omega)
    have hlt : n < TFVPN := by omega
    have hback : ∀ (T1 : PageTree 2) (ph1 : Phys), Became ph ph1 T T1 →
        (∀ k, leafOf T1 k = leafOf T k) →
        post (do
            uvmunmap (rootPage 2 T) 0 (n*PGSIZE/PGSIZE) true
            return false) ph1 (fun r ph' => ∃ T', Became ph ph' T T' ∧
          if r then Filled (n+(cnt+1)) T T'
          else ∀ m, m < NVPN → leafOf T' m = if m < n then none else leafOf T m)
          never := by
      intro T1 ph1 hb1 hleaf1
      have hunmap := uvmunmap_post true n (n := 0) (by
        rw [Nat.zero_add]
        exact hlt.le.trans (by decide)) hb1.maps (hb1.holds hhT) (by
        intro m a _ hmn ha
        rw [hleaf1] at ha
        exact hown m a (by omega) ha)
      rw [hb1.root] at hunmap
      rw [Nat.mul_div_cancel _ (by decide)]
      apply post_bind_of hunmap
      rintro _ ph2 ⟨T2,hb2,hleaf2⟩
      refine ⟨T2, hb1.trans hb2, ?_⟩
      intro m hmv
      rw [hleaf2 m hmv, hleaf1]
      simp
    -- the rest of the loop after a round that leaves everything but page `n` as it was
    have hnext : ∀ (T1 : PageTree 2) (ph1 : Phys), Became ph ph1 T T1 →
        (∀ k, k < NVPN → k ≠ n → leafOf T1 k = leafOf T k) →
        (∀ a, leafOf T1 n = some a → a.own = true) →
        post (copyLoop (rootPage 2 S) (rootPage 2 T) cnt (n*PGSIZE+PGSIZE)) ph1
          (fun r ph' => ∃ T', Became ph ph' T T' ∧
            if r then Filled (n+(cnt+1)) T T'
            else ∀ m, m < NVPN → leafOf T' m = if m < n then none else leafOf T m)
          never := by
      intro T1 ph1 hb1 hleaf1 hnew
      obtain ⟨hS1,hh1⟩ := hb1.other hS hh
      have hlim : ∀ k, k < TFVPN → k < NVPN := fun k hk => hk.trans (by decide)
      have hrun := ih (n := n+1) (by omega) hS1 hb1.maps hh1 (by
        intro k hle hk
        rw [hleaf1 k (hlim k hk) (by omega)]
        exact hnone k (by omega) hk) (by
        intro k a hk ha
        by_cases hkn : k = n
        · exact hnew a (hkn ▸ ha)
        · rw [hleaf1 k (hlim k (by omega)) hkn] at ha
          exact hown k a (by omega) ha)
      rw [hb1.root, show (n+1)*PGSIZE = n*PGSIZE+PGSIZE by ring] at hrun
      apply post_imp hrun
      rintro r ph2 ⟨T2,hb2,hcase⟩
      refine ⟨T2, hb1.trans hb2, ?_⟩
      cases r with
      | true =>
        rw [show n+1+cnt = n+(cnt+1) by omega] at hcase
        refine Filled.trans ?_ hcase
        intro m hmv
        by_cases hmn : m = n
        · rw [hmn, hnone n (Nat.le_refl n) hlt]
          cases hold : leafOf T1 n with
          | none => exact Or.inl rfl
          | some a => exact Or.inr ⟨rfl, by omega, a, rfl, hnew a hold⟩
        · exact Or.inl (hleaf1 m hmv hmn)
      | false =>
        intro m hmv
        rw [hcase m hmv]
        by_cases hmn : m = n
        · rw [if_pos (by omega), if_neg (by omega), hmn, hnone n (Nat.le_refl n) hlt]
        · by_cases hlt' : m < n
          · rw [if_pos (by omega), if_pos hlt']
          · rw [if_neg (by omega), if_neg hlt', hleaf1 m hmv hmn]
    apply post_bind_of (readPte_post hS (vpn_lt hlt))
    rintro r ph1 ⟨rfl,rfl⟩
    cases hread : lookup px 2 S (n*PGSIZE) with
    | none =>
      apply hnext T ph1 (Became.refl hm) (fun _ _ _ => rfl)
      intro a ha
      rw [hnone n (Nat.le_refl n) hlt] at ha
      exact absurd ha (by simp)
    | some b =>
      rw [Option.map_some]
      apply post_bind_of (kalloc_post ph1)
      rintro r ph2 ⟨hend,hk⟩
      cases r with
      | none =>
        exact hback T ph2 ⟨rfl, hk.1 ▸ hm, Moves.same hend hk _⟩ (fun _ => rfl)
      | some m =>
        obtain ⟨hmem,hfree⟩ := hk
        apply post_bind_of (post_errors (mapFresh_post ⟨hend,hmem,hfree⟩ (ph2.mem b.pte.ppn) b.w
          b.x b.u (n := n) (hlt.trans_le (by decide)) hm hhT) (fun _ _ h => h.1 (hnone n (Nat.le_refl n) hlt)))
        rintro r ph3 ⟨T3,hb3,hcase⟩
        cases r with
        | false => exact hback T3 ph3 hb3 hcase
        | true =>
          obtain ⟨_,_,hleaf3⟩ := hcase
          apply hnext T3 ph3 hb3
          · intro k hk hkn
            rw [hleaf3 k hk, if_neg hkn]
          · intro a ha
            rw [hleaf3 n (hlt.trans (by decide)), if_pos rfl] at ha
            rw [← Option.some.inj ha]

theorem div_lt_pgs {va : ℕ} (h : va < sz) : va/PGSIZE < pgs sz := by
  rw [pgs, PGSIZE]
  omega

theorem vmfault_post (va : ℕ) (hsz : sz ≤ TRAPFRAME)
    (hm : Maps ph.mem 2 T) (hh : Holds ph (pages 2 T)) :
    post (vmfault (rootPage 2 T) sz (rootPage 2 T) va) ph (fun r ph' => ∃ T',
      Became ph ph' T T' ∧ Filled (pgs sz) T T' ∧
      (r.isSome → ∃ a, leafOf T' (va/PGSIZE) = some a)) never := by
  unfold vmfault
  by_cases hva : va ≥ sz
  · rw [if_pos hva]
    exact ⟨T, Became.refl hm, Filled.refl (pgs sz) T, by simp⟩
  · have hpg : va/PGSIZE < pgs sz := div_lt_pgs (by omega)
    have hlt := hpg.trans_le (pgs_le hsz)
    rw [if_neg hva]
    unfold ismapped
    rw [post_bind, post_bind]
    apply post_imp (readPte_post hm (vpn_lt hlt))
    rintro r ph1 ⟨rfl,rfl⟩
    rw [post_pure]
    cases hread : lookup px 2 T (va/PGSIZE*PGSIZE) with
    | some b =>
      exact ⟨T, Became.refl hm, Filled.refl (pgs sz) T, by simp⟩
    | none =>
      apply post_bind_of (kalloc_post ph1)
      rintro r ph2 ⟨hend,hk⟩
      cases r with
      | none =>
        exact ⟨T, ⟨rfl, hk.1 ▸ hm, Moves.same hend hk _⟩, Filled.refl (pgs sz) T, by simp⟩
      | some m =>
        obtain ⟨hmem,hfree⟩ := hk
        apply post_bind_of (post_errors (mapFresh_post ⟨hend,hmem,hfree⟩ zeroPage true false true
          (n := va/PGSIZE) (hlt.trans_le (by decide)) hm hh) (fun _ _ h => h.1 hread))
        rintro r ph3 ⟨T3,hb3,hcase⟩
        cases r with
        | false =>
          exact ⟨T3, hb3, fun k _ => Or.inl (hcase k), by simp⟩
        | true =>
          obtain ⟨_,_,hleaf3⟩ := hcase
          refine ⟨T3, hb3, ?_, ?_⟩
          · intro k hk
            rw [hleaf3 k hk]
            split_ifs with hkn
            · exact Or.inr ⟨hkn ▸ hread, hkn ▸ hpg, _, rfl, rfl⟩
            · exact Or.inl rfl
          · intro _
            exact ⟨_, by rw [hleaf3 _ (hlt.trans (by decide)), if_pos rfl]⟩

theorem walkaddr_post (n : ℕ) (hm : Maps ph.mem 2 T) :
    post (walkaddr (rootPage 2 T) (n*PGSIZE)) ph (fun r ph' => ph' = ph ∧
      r = if n*PGSIZE ≥ MAXVA then none
        else (leafOf T n).bind fun a => if a.u then some a.ppn else none)
      never := by
  unfold walkaddr
  by_cases hva : n*PGSIZE ≥ MAXVA
  · rw [if_pos hva]
    exact ⟨rfl, by rw [if_pos hva]⟩
  · rw [if_neg hva]
    apply post_bind_of (readPte_post hm (by omega))
    rintro r ph1 ⟨rfl,rfl⟩
    rw [if_neg hva]
    change post _ _ (fun r ph' => _ ∧ r = (lookup px 2 T (n*PGSIZE)).bind _) _
    cases lookup px 2 T (n*PGSIZE) with
    | none => exact ⟨rfl,rfl⟩
    | some a => exact ⟨rfl,rfl⟩

theorem touchPage_post (n : ℕ) (hsz : sz ≤ TRAPFRAME)
    (hm : Maps ph.mem 2 T) (hh : Holds ph (pages 2 T)) :
    post (touchPage (rootPage 2 T) sz (rootPage 2 T) (n*PGSIZE)) ph (fun r ph' => ∃ T',
      Became ph ph' T T' ∧ Filled (pgs sz) T T' ∧ (r.isSome → ∃ a, leafOf T' n = some a))
      never := by
  apply post_bind_of (walkaddr_post n hm)
  rintro r ph1 ⟨rfl,rfl⟩
  split_ifs with hva
  · apply post_imp (vmfault_post (n*PGSIZE) hsz hm hh)
    rintro r ph' ⟨T',hb,hf,hsome⟩
    rw [Nat.mul_div_cancel _ (by decide)] at hsome
    exact ⟨T', hb, hf, hsome⟩
  · cases hl : (leafOf T n).bind fun a => if a.u then some a.ppn else none with
    | some pa =>
      obtain ⟨a,ha,_⟩ := Option.bind_eq_some_iff.mp hl
      exact ⟨T, Became.refl hm, Filled.refl (pgs sz) T, fun _ => ⟨a,ha⟩⟩
    | none =>
      apply post_imp (vmfault_post (n*PGSIZE) hsz hm hh)
      rintro r ph' ⟨T',hb,hf,hsome⟩
      rw [Nat.mul_div_cancel _ (by decide)] at hsome
      exact ⟨T', hb, hf, hsome⟩

theorem copyoutLoop_post (fuel : ℕ) (dstva len : ℕ)
    (hsz : sz ≤ TRAPFRAME) (hm : Maps ph.mem 2 T) (hh : Holds ph (pages 2 T)) :
    post (copyoutLoop (rootPage 2 T) sz (rootPage 2 T) fuel dstva len) ph (fun _ ph' => ∃ T',
      Became ph ph' T T' ∧ Filled (pgs sz) T T') never := by
  induction fuel generalizing ph T dstva len with
  | zero => exact ⟨T, Became.refl hm, Filled.refl (pgs sz) T⟩
  | succ fuel ih =>
    unfold copyoutLoop
    by_cases hlen : len = 0
    · rw [if_pos hlen]
      exact ⟨T, Became.refl hm, Filled.refl (pgs sz) T⟩
    rw [if_neg hlen]
    by_cases hva : pgRoundDown dstva ≥ MAXVA
    · rw [if_pos hva]
      exact ⟨T, Became.refl hm, Filled.refl (pgs sz) T⟩
    rw [if_neg hva]
    apply post_bind_of (touchPage_post (dstva/PGSIZE) hsz hm hh)
    rintro r ph1 ⟨T1,hb1,hf1,hsome⟩
    cases r with
    | none => exact ⟨T1, hb1, hf1⟩
    | some pa =>
      obtain ⟨a,ha⟩ := hsome rfl
      rw [← hb1.root]
      apply post_bind_of (readPte_post hb1.maps (by omega))
      rintro r ph2 ⟨rfl,rfl⟩
      rw [show lookup px 2 T1 (pgRoundDown dstva) = some a from ha, Option.map_some]
      dsimp only
      split_ifs
      · apply post_imp (ih _ _ hb1.maps (hb1.holds hh))
        rintro _ ph' ⟨T2,hb2,hf2⟩
        exact ⟨T2, hb1.trans hb2, hf1.trans hf2⟩
      · exact ⟨T1, hb1, hf1⟩

theorem copyinLoop_post (fuel : ℕ) (srcva len : ℕ)
    (hsz : sz ≤ TRAPFRAME) (hm : Maps ph.mem 2 T) (hh : Holds ph (pages 2 T)) :
    post (copyinLoop (rootPage 2 T) sz (rootPage 2 T) fuel srcva len) ph (fun _ ph' => ∃ T',
      Became ph ph' T T' ∧ Filled (pgs sz) T T') never := by
  induction fuel generalizing ph T srcva len with
  | zero => exact ⟨T, Became.refl hm, Filled.refl (pgs sz) T⟩
  | succ fuel ih =>
    unfold copyinLoop
    by_cases hlen : len = 0
    · rw [if_pos hlen]
      exact ⟨T, Became.refl hm, Filled.refl (pgs sz) T⟩
    rw [if_neg hlen]
    apply post_bind_of (touchPage_post (srcva/PGSIZE) hsz hm hh)
    rintro r ph1 ⟨T1,hb1,hf1,_⟩
    cases r with
    | none => exact ⟨T1, hb1, hf1⟩
    | some pa =>
      rw [← hb1.root]
      apply post_imp (ih _ _ hb1.maps (hb1.holds hh))
      rintro _ ph' ⟨T2,hb2,hf2⟩
      exact ⟨T2, hb1.trans hb2, hf1.trans hf2⟩

/-- A copy to pages that user code may write to happens without a page fault; `own` and `sz`,
which only a page fault looks at, can be those of another address space. -/
theorem copyoutLoop_mapped (own sz fuel : ℕ) (dstva len : ℕ)
    (hm : Maps ph.mem 2 T) (hfit : dstva+len ≤ TRAPFRAME)
    (hmapped : ∀ n, dstva/PGSIZE ≤ n → n*PGSIZE < dstva+len →
      ∃ a, leafOf T n = some a ∧ a.u = true ∧ a.w = true) :
    post (copyoutLoop own sz (rootPage 2 T) fuel dstva len) ph (fun _ ph' => ph' = ph)
      never := by
  induction fuel generalizing dstva len with
  | zero => exact rfl
  | succ fuel ih =>
    unfold copyoutLoop
    by_cases hlen : len = 0
    · rw [if_pos hlen]
      exact rfl
    have hdiv : dstva/PGSIZE*PGSIZE ≤ dstva := Nat.div_mul_le_self _ _
    have hva : ¬pgRoundDown dstva ≥ MAXVA := by
      have hlim : TRAPFRAME < MAXVA := by decide
      rw [pgRoundDown]
      omega
    obtain ⟨a,ha,hu,hw⟩ := hmapped (dstva/PGSIZE) (Nat.le_refl _) (by omega)
    rw [if_neg hlen, if_neg hva]
    have htouch : post (touchPage own sz (rootPage 2 T) (pgRoundDown dstva)) ph
        (fun r ph' => ph' = ph ∧ r = some a.ppn) never := by
      apply post_bind_of (walkaddr_post (dstva/PGSIZE) hm)
      rintro r ph1 ⟨rfl,rfl⟩
      rw [if_neg (show ¬dstva/PGSIZE*PGSIZE ≥ MAXVA from hva), ha, Option.bind_some, if_pos hu]
      exact ⟨rfl,rfl⟩
    apply post_bind_of htouch
    rintro _ ph1 ⟨rfl,rfl⟩
    apply post_bind_of (readPte_post hm (by omega))
    rintro _ ph2 ⟨rfl,rfl⟩
    rw [show lookup px 2 T (pgRoundDown dstva) = some a from ha, Option.map_some]
    dsimp only
    rw [if_pos (show a.pte.perm.w = true from hw)]
    -- the next round is the same, unless this page was the last one
    by_cases hlast : len ≤ PGSIZE-(dstva-pgRoundDown dstva)
    · rw [Nat.min_eq_right hlast, Nat.sub_self]
      cases fuel with
      | zero => exact rfl
      | succ fuel =>
        unfold copyoutLoop
        exact rfl
    · have hround : pgRoundDown dstva+PGSIZE+
          (len-min (PGSIZE-(dstva-pgRoundDown dstva)) len) = dstva+len := by
        rw [pgRoundDown, PGSIZE] at *
        omega
      apply ih
      · rw [hround]
        exact hfit
      · intro n hle hlt
        rw [hround] at hlt
        refine hmapped n ?_ hlt
        rw [pgRoundDown, PGSIZE] at hle
        rw [PGSIZE]
        omega

theorem uvmclear_post {a : Leaf} (hn : n < TFVPN)
    (hm : Maps ph.mem 2 T) (hh : Holds ph (pages 2 T)) (ha : leafOf T n = some a) :
    post (uvmclear (rootPage 2 T) (n*PGSIZE)) ph (fun _ ph' => ∃ T', Became ph ph' T T' ∧
      ∀ m, m < NVPN → leafOf T' m = if m = n then some { a with u := false } else leafOf T m)
      never := by
  unfold uvmclear walk
  rw [if_neg (by have := vpn_lt hn; omega)]
  apply post_bind_of (walkLoop_read (n*PGSIZE) hm)
  rintro r ph1 ⟨rfl,rfl⟩
  cases hq : leafPage px 2 T (n*PGSIZE) with
  | none =>
    have hnone : leafOf T n = none := lookup_of_leafPage_none hq
    rw [ha] at hnone
    exact absurd hnone (by simp)
  | some q =>
    have hpath : leafPage px 2 T (n*PGSIZE) ≠ none := by rw [hq]; simp
    have hentry : ph1.mem q (px 0 (n*PGSIZE)) = some a.pte := by
      rw [hm.leaf hq]
      change (leafOf T n).map Leaf.pte = _
      rw [ha, Option.map_some]
    have hone : ∀ c, pages 2 T c ≤ 1 := by
      intro c
      have := hh.once c
      omega
    have hpages : ∀ c, pages 2 (setLeaf px 2 T (n*PGSIZE) (some { a with u := false })) c =
        pages 2 T c := by
      intro c
      have hset := pages_setLeaf hpath (some { a with u := false }) c
      rw [ha, Option.elim_some, Option.elim_some] at hset
      have : leafTally Leaf.owned { a with u := false } c = leafTally Leaf.owned a c := rfl
      omega
    rw [Option.map_some]
    rw [post_bind, post_get, hentry, setPte, post_modify]
    refine ⟨setLeaf px 2 T (n*PGSIZE) (some { a with u := false }), ⟨rootPage_setLeaf _ _ _ _,
      hm.store hone hq _, ?_, ?_, rfl⟩, ?_⟩
    · intro c
      rw [hpages c]
    · intro c hc
      apply Function.update_of_ne
      rintro rfl
      have : 0 < pages 2 T c := leafPage_tally hq
      omega
    · intro m hmv
      exact leafOf_setLeaf (hn.trans (by decide)) hmv hpath _

end Xv6
