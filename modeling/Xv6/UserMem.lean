import Xv6.PageFree

/-! Growing, shrinking and freeing user memory. Sizes are given in bytes, as in the source, and
translated to page numbers. -/
namespace Xv6
open StateOutcome RadixTree Function

/-- The number of pages that `sz` bytes need. -/
def pgs (sz : ℕ) : ℕ := (sz+PGSIZE-1)/PGSIZE

variable {sz n : ℕ} {T : PageTree 2} {ph : Phys}

theorem pgRoundUp_eq (h : sz ≤ TRAPFRAME) : pgRoundUp sz = pgs sz*PGSIZE := by
  rw [pgRoundUp, pgs]
  norm_num at *
  omega

theorem pgs_le (h : sz ≤ TRAPFRAME) : pgs sz ≤ TFVPN := by
  rw [pgs]
  norm_num at *
  omega

theorem pgs_mul (n : ℕ) : pgs (n*PGSIZE) = n := by
  rw [pgs, PGSIZE]
  omega

theorem pgs_mono {a b : ℕ} (h : a ≤ b) : pgs a ≤ pgs b := by
  exact Nat.div_le_div_right (by omega)

/-- One page table in memory turned into another, with all pages accounted for. -/
structure Became (ph ph' : Phys) (T T' : PageTree 2) : Prop where
  root : rootPage 2 T' = rootPage 2 T
  maps : Maps ph'.mem 2 T'
  moves : Moves ph ph' (pages 2 T) (pages 2 T')

theorem Became.refl (hm : Maps ph.mem 2 T) : Became ph ph T T :=
  ⟨rfl, hm, Moves.refl _ _⟩

theorem Became.trans {ph1 ph2 ph3 : Phys} {T1 T2 T3 : PageTree 2} (h : Became ph1 ph2 T1 T2)
    (h' : Became ph2 ph3 T2 T3) : Became ph1 ph3 T1 T3 :=
  ⟨h'.root.trans h.root, h'.maps, h.moves.trans h'.moves⟩

theorem Became.holds {ph' : Phys} {T' : PageTree 2} (h : Became ph ph' T T')
    (hh : Holds ph (pages 2 T)) : Holds ph' (pages 2 T') :=
  h.moves.holds hh

theorem uvmunmap_post (doFree : Bool) (cnt : ℕ)
    (hn : n+cnt ≤ MAXVA/PGSIZE) (hm : Maps ph.mem 2 T) (hh : Holds ph (pages 2 T))
    (hown : ∀ m a, n ≤ m → m < n+cnt → leafOf T m = some a → a.own = doFree) :
    post (uvmunmap (rootPage 2 T) (n*PGSIZE) cnt doFree) ph (fun _ ph' => ∃ T', Became ph ph' T T' ∧
      ∀ m, m < NVPN → leafOf T' m = if n ≤ m ∧ m < n+cnt then none else leafOf T m)
      never := by
  unfold uvmunmap
  rw [if_neg (by rw [Nat.mul_mod_left]; simp)]
  apply post_imp (unmapLoop_post doFree cnt hn hm hh hown)
  rintro _ ph' ⟨T',hroot,hm',hleaf,hmove⟩
  exact ⟨T', ⟨hroot,hm',hmove⟩, hleaf⟩

theorem uvmdealloc_post {oldsz : ℕ} (newsz : ℕ) (hold : oldsz ≤ TRAPFRAME)
    (hm : Maps ph.mem 2 T) (hh : Holds ph (pages 2 T))
    (hown : ∀ m a, pgs newsz ≤ m → m < pgs oldsz → leafOf T m = some a → a.own = true) :
    post (uvmdealloc (rootPage 2 T) oldsz newsz) ph (fun r ph' => r = min oldsz newsz ∧ ∃ T',
      Became ph ph' T T' ∧ ∀ m, m < NVPN →
        leafOf T' m = if pgs newsz ≤ m ∧ m < pgs oldsz then none else leafOf T m)
      never := by
  have hempty : pgs oldsz ≤ pgs newsz → ∀ m, m < NVPN →
      leafOf T m = if pgs newsz ≤ m ∧ m < pgs oldsz then none else leafOf T m := by
    intro hle m _
    rw [if_neg (by omega)]
  unfold uvmdealloc
  by_cases hnew : newsz ≥ oldsz
  · rw [if_pos hnew]
    exact ⟨by omega, T, Became.refl hm, hempty (pgs_mono hnew)⟩
  · have hroundOld := pgRoundUp_eq hold
    have hroundNew := pgRoundUp_eq (show newsz ≤ TRAPFRAME by omega)
    have hlim := pgs_le hold
    rw [if_neg hnew, hroundOld, hroundNew]
    by_cases hlt : pgs newsz < pgs oldsz
    · have hcnt : (pgs oldsz*PGSIZE-pgs newsz*PGSIZE)/PGSIZE = pgs oldsz-pgs newsz := by
        rw [← Nat.sub_mul, Nat.mul_div_cancel _ (by decide)]
      have hrange : pgs newsz+(pgs oldsz-pgs newsz) = pgs oldsz := by omega
      rw [if_pos (Nat.mul_lt_mul_of_pos_right hlt (by decide)), hcnt]
      have hrun := uvmunmap_post true (pgs oldsz-pgs newsz) (n := pgs newsz) (by
        rw [hrange]
        exact hlim.trans (by decide)) hm hh (by rw [hrange]; exact hown)
      rw [hrange] at hrun
      apply post_bind_of hrun
      rintro _ ph' hT'
      exact ⟨by omega, hT'⟩
    · rw [if_neg (by
        rw [Nat.mul_lt_mul_right (by decide)]
        exact hlt)]
      exact ⟨by omega, T, Became.refl hm, hempty (by omega)⟩

/-- What `kalloc` did when it returned page `m`. -/
structure Kalloced (ph ph1 : Phys) (m : ℕ) : Prop where
  endPage : ph1.endPage = ph.endPage
  mem : ph1.mem = update ph.mem m freshJunk
  free : ph.free = m :: ph1.free

/-- A page that was just allocated is filled and mapped, or is free again. -/
theorem mapFresh_post {ph1 : Phys} {m : ℕ} (hk : Kalloced ph ph1 m)
    (c : Page) (w x u : Bool) (hn : n < MAXVA/PGSIZE) (hm : Maps ph.mem 2 T)
    (hh : Holds ph (pages 2 T)) :
    post (mapFresh (rootPage 2 T) (n*PGSIZE) m c ⟨true,w,x,u⟩) ph1 (fun r ph' => ∃ T',
      Became ph ph' T T' ∧ if r then ph'.free.length+1 ≤ ph.free.length ∧ leafOf T n = none ∧
          ∀ k, k < NVPN → leafOf T' k = if k = n then some ⟨m,w,x,u,true⟩ else leafOf T k
        else ∀ k, leafOf T' k = leafOf T k)
      (fun e _ => leafOf T n ≠ none ∧ e = .panic "mappages: remap") := by
  unfold mapFresh
  rw [post_bind, fillPage, post_modify]
  obtain ⟨ph2,hph2⟩ : ∃ ph2 : Phys, ph2 = { ph1 with mem := update ph1.mem m c } :=
    ⟨_,rfl⟩
  rw [← hph2]
  have hmem2 : ph2.mem = update ph.mem m c := by
    rw [hph2, hk.mem, update_idem]
  have hlen2 : ph2.free.length+1 = ph.free.length := by
    rw [hk.free, hph2, List.length_cons]
  have hmove2 : Moves ph ph2 (fun _ => 0) (single m) := by
    refine ⟨?_, ?_, by rw [hph2]; exact hk.endPage⟩
    · intro a
      rw [hk.free, List.count_cons, hph2, single]
      simp only [beq_iff_eq]
      omega
    · intro a ha
      rw [hmem2]
      apply update_of_ne
      rintro rfl
      rw [hk.free, List.count_cons_self] at ha
      omega
  have hm0 : pages 2 T m = 0 := by
    have := hh.once m
    rw [hk.free, List.count_cons_self] at this
    omega
  have hm2 : Maps ph2.mem 2 T := by
    apply hm.congr
    intro a ha
    rw [hmem2]
    apply update_of_ne
    rintro rfl
    omega
  have hmoveT : Moves ph ph2 (pages 2 T) (fun a => pages 2 T a+single m a) :=
    (hmove2.frame (pages 2 T)).congr (fun a => by omega) (fun a => by omega)
  have hh2 := hmoveT.holds hh
  have hleaf : ∀ a, leafTally Leaf.owned ⟨m,w,x,u,true⟩ a = single m a :=
    (leafTally_owned rfl)
  apply post_bind_of (mappages_post ⟨m,w,x,u,true⟩ hn hm2 (hh2.mono (fun a => by omega)))
  rintro r ph3 ⟨T3,hroot3,hm3,hlen3,hcase⟩
  cases r with
  | true =>
    obtain ⟨hnone,hleaf3,hmove3⟩ := hcase
    refine ⟨T3, ⟨hroot3, hm3, hmoveT.trans (hmove3.congr ?_ (fun _ => rfl))⟩, ?_⟩
    · intro a
      rw [hleaf a]
    · exact ⟨by omega, hnone, hleaf3⟩
  | false =>
    obtain ⟨hleaf3,hmove3⟩ := hcase
    have hmoveTm := hmoveT.trans (hmove3.frame (single m))
    have hh3 := hmoveTm.holds hh
    apply post_bind_of (post_safe (kfree_post (hh3.mono (fun a => by omega))))
    rintro _ ph4 ⟨hmove4,hother4⟩
    refine ⟨T3, ⟨hroot3, ?_, ?_⟩, hleaf3⟩
    · apply hm3.congr
      intro a ha
      apply hother4
      rintro rfl
      have := hh3.once a
      rw [single, if_pos rfl] at this
      omega
    · exact hmoveTm.trans ((hmove4.frame (pages 2 T3)).congr
        (fun a => by omega) (fun a => by omega))

/-- The leaf that `uvmalloc` makes for a page. -/
def grownLeaf (xperm : Perm) (q : ℕ) : Leaf := ⟨q, xperm.w, xperm.x, true, true⟩

/-- The pages from `n` to `n+cnt` are mapped, and nothing else is new. -/
def Grown (xperm : Perm) (n cnt : ℕ) (T T' : PageTree 2) : Prop :=
  ∀ m, m < NVPN → (n ≤ m ∧ m < n+cnt → ∃ q, leafOf T' m = some (grownLeaf xperm q)) ∧
    (¬(n ≤ m ∧ m < n+cnt) → leafOf T' m = leafOf T m)

/-- The loop of `uvmalloc`. When it fails, everything from `o` on is unmapped again. Every
round takes a page from the free list; only a loop that has memory for all pages up to the
trapframe, and that is to go on there, runs into it. -/
theorem allocLoop_post (xperm : Perm) (cnt : ℕ) {o : ℕ}
    (hon : o ≤ n) (hn : n ≤ TFVPN) (hm : Maps ph.mem 2 T) (hh : Holds ph (pages 2 T))
    (htop : leafOf T TFVPN ≠ none) (hnone : ∀ m, n ≤ m → m < TFVPN → leafOf T m = none)
    (hown : ∀ m a, o ≤ m → m < n → leafOf T m = some a → a.own = true) :
    post (allocLoop (rootPage 2 T) (o*PGSIZE) xperm cnt (n*PGSIZE)) ph (fun r ph' => ∃ T',
      Became ph ph' T T' ∧ if r then n+cnt ≤ TFVPN ∧ ph'.free.length+cnt ≤ ph.free.length ∧
          Grown xperm n cnt T T'
        else ∀ m, m < NVPN → leafOf T' m = if o ≤ m ∧ m < n then none else leafOf T m)
      (fun e _ => (TFVPN < n+cnt ∧ TFVPN < n+ph.free.length) ∧
        e = .panic "mappages: remap") := by
  have hTF : ∀ k, k ≤ TFVPN → k*PGSIZE ≤ TRAPFRAME := by
    intro k hk
    have : TFVPN*PGSIZE = TRAPFRAME := by decide
    exact Nat.mul_le_mul_right _ hk
  induction cnt generalizing ph T n with
  | zero =>
    refine ⟨T, Became.refl hm, ?_⟩
    refine ⟨by omega, by omega, ?_⟩
    intro m _
    exact ⟨fun h => by omega, fun _ => rfl⟩
  | succ cnt ih =>
    -- both ways to fail give back what was mapped so far
    have hback : ∀ (T1 : PageTree 2) (ph1 : Phys), Became ph ph1 T T1 →
        (∀ k, leafOf T1 k = leafOf T k) →
        post (do
            let _ ← uvmdealloc (rootPage 2 T) (n*PGSIZE) (o*PGSIZE)
            return false) ph1 (fun r ph' => ∃ T', Became ph ph' T T' ∧
          if r then n+(cnt+1) ≤ TFVPN ∧ ph'.free.length+(cnt+1) ≤ ph.free.length ∧
            Grown xperm n (cnt+1) T T'
          else ∀ m, m < NVPN → leafOf T' m = if o ≤ m ∧ m < n then none else leafOf T m)
          (fun e _ => (TFVPN < n+(cnt+1) ∧ TFVPN < n+ph.free.length) ∧
            e = .panic "mappages: remap") := by
      intro T1 ph1 hb1 hleaf1
      have hdealloc := uvmdealloc_post (o*PGSIZE) (hTF n hn) hb1.maps (hb1.holds hh) (by
        intro m a hle hlt ha
        rw [pgs_mul] at hle hlt
        rw [hleaf1] at ha
        exact hown m a hle hlt ha)
      rw [hb1.root, pgs_mul, pgs_mul] at hdealloc
      apply post_bind_of (post_safe hdealloc)
      rintro _ ph2 ⟨_,T2,hb2,hleaf2⟩
      refine ⟨T2, hb1.trans hb2, ?_⟩
      intro m hmv
      rw [hleaf2 m hmv, hleaf1]
    apply post_bind_of (post_safe (kalloc_post ph))
    rintro r ph1 ⟨hend,hk⟩
    cases r with
    | none =>
      exact hback T ph1 ⟨rfl, hk.1 ▸ hm, Moves.same hend hk _⟩ (fun _ => rfl)
    | some m =>
      obtain ⟨hmem,hfree⟩ := hk
      have hlen : ph.free.length = ph1.free.length+1 := by rw [hfree, List.length_cons]
      have hmap := mapFresh_post ⟨hend,hmem,hfree⟩ zeroPage xperm.w xperm.x true
        (n := n) (hn.trans_lt (by decide)) hm hh
      apply post_bind_of (post_errors hmap (by
        rintro e _ ⟨hsome,he⟩
        have hend : ¬n < TFVPN := fun hlt => hsome (hnone n (Nat.le_refl n) hlt)
        exact ⟨by omega, he⟩))
      rintro r ph2 ⟨T2,hb2,hcase⟩
      cases r with
      | false => exact hback T2 ph2 hb2 hcase
      | true =>
        obtain ⟨hlen2,hempty,hleaf2⟩ := hcase
        have hlt : n < TFVPN := by
          rcases Nat.lt_or_eq_of_le hn with hlt | heq
          · exact hlt
          · exact absurd (heq ▸ hempty) htop
        have hlim : ∀ k, k < TFVPN → k < NVPN := fun k hk => hk.trans (by decide)
        rw [← hb2.root, show n*PGSIZE+PGSIZE = (n+1)*PGSIZE by ring]
        have hrun := ih (n := n+1) (by omega) (by omega) hb2.maps (hb2.holds hh) (by
          rw [hleaf2 TFVPN (by decide), if_neg (by omega)]
          exact htop) (by
          intro k hle hk
          rw [hleaf2 k (hlim k hk), if_neg (by omega)]
          exact hnone k (by omega) hk) (by
          intro k a hle hk ha
          rw [hleaf2 k (hlim k (by omega))] at ha
          split_ifs at ha with hkn
          · rw [← Option.some.inj ha]
          · exact hown k a hle (by omega) ha)
        apply post_mono hrun _ (fun e _ he => ⟨by omega, he.2⟩)
        rintro r ph3 ⟨T3,hb3,hcase3⟩
        refine ⟨T3, hb2.trans hb3, ?_⟩
        cases r with
        | true =>
          obtain ⟨hlim3,hlen3,hgrown⟩ := hcase3
          refine ⟨by omega, by omega, ?_⟩
          intro k hk
          obtain ⟨hin,hout⟩ := hgrown k hk
          constructor
          · intro hkr
            by_cases hkn : k = n
            · refine ⟨m, ?_⟩
              rw [hout (by omega), hleaf2 k hk, if_pos hkn]
              rfl
            · exact hin (by omega)
          · intro hkr
            rw [hout (by omega), hleaf2 k hk, if_neg (by omega)]
        | false =>
          intro k hk
          rw [hcase3 k hk, hleaf2 k hk]
          by_cases hko : o ≤ k ∧ k < n+1
          · rw [if_pos hko]
            by_cases hkn : k = n
            · -- the page of this round: it was not mapped before
              rw [if_neg (by omega), hkn, hnone n (Nat.le_refl n) hlt]
            · rw [if_pos (by omega)]
          · rw [if_neg hko, if_neg (by omega), if_neg (by omega)]

theorem Grown.zero (xperm : Perm) (n : ℕ) (T : PageTree 2) : Grown xperm n 0 T T :=
  fun _ _ => ⟨fun h => by omega, fun _ => rfl⟩

/-- `uvmalloc` either changes no translation and returns 0, or maps every page up to the new
size. -/
theorem uvmalloc_post (xperm : Perm) {oldsz : ℕ} (newsz : ℕ)
    (hold : oldsz ≤ TRAPFRAME) (hm : Maps ph.mem 2 T) (hh : Holds ph (pages 2 T))
    (htop : leafOf T TFVPN ≠ none) (hnone : ∀ m, pgs oldsz ≤ m → m < TFVPN → leafOf T m = none) :
    post (uvmalloc (rootPage 2 T) oldsz newsz xperm) ph (fun r ph' => ∃ T', Became ph ph' T T' ∧
      ((r = 0 ∧ ∀ m, m < NVPN → leafOf T' m = leafOf T m) ∨ (r = max oldsz newsz ∧ r ≤ TRAPFRAME ∧
          ph'.free.length+pgs r ≤ ph.free.length+pgs oldsz ∧
          Grown xperm (pgs oldsz) (pgs r-pgs oldsz) T T')))
      (fun e _ => (TRAPFRAME < newsz ∧ TFVPN < pgs oldsz+ph.free.length) ∧
        e = .panic "mappages: remap") := by
  unfold uvmalloc
  by_cases hlt : newsz < oldsz
  · rw [if_pos hlt]
    refine ⟨T, Became.refl hm, Or.inr ⟨by omega, hold, Nat.le_refl _, ?_⟩⟩
    rw [Nat.sub_self]
    exact Grown.zero xperm _ T
  · have hlim := pgs_le hold
    have hcnt : (newsz-pgs oldsz*PGSIZE+PGSIZE-1)/PGSIZE = pgs newsz-pgs oldsz := by
      rw [pgs, pgs, PGSIZE] at *
      omega
    rw [if_neg hlt, pgRoundUp_eq hold, hcnt]
    have hrun := allocLoop_post xperm (pgs newsz-pgs oldsz) (Nat.le_refl (pgs oldsz)) hlim hm hh
      htop hnone (fun m a hle hlt => by omega)
    apply post_bind_of (post_errors hrun (by
      rintro e _ ⟨⟨hfar,hmany⟩,he⟩
      refine ⟨⟨?_, hmany⟩, he⟩
      by_contra hle
      have := pgs_le (Nat.not_lt.mp hle)
      omega))
    rintro r ph' ⟨T',hb,hcase⟩
    refine ⟨T', hb, ?_⟩
    cases r with
    | true =>
      rw [if_pos rfl] at hcase ⊢
      obtain ⟨hTF,hlen,hgrown⟩ := hcase
      refine Or.inr ⟨by omega, ?_, by omega, hgrown⟩
      have hle : pgs newsz ≤ TFVPN := by omega
      norm_num at *
      omega
    | false =>
      refine Or.inl ⟨rfl, ?_⟩
      intro m hmv
      rw [hcase m hmv, if_neg (by omega)]

theorem uvmfree_post (hsz : sz ≤ TRAPFRAME)
    (hm : Maps ph.mem 2 T) (hh : Holds ph (pages 2 T)) (hleaf : LeavesIn (fun n => n < pgs sz) T) :
    post (uvmfree (rootPage 2 T) sz) ph
      (fun _ ph' => Moves ph ph' (pages 2 T) (fun _ => 0)) never := by
  have hlim := pgs_le hsz
  have hunmap : post (if sz > 0 then uvmunmap (rootPage 2 T) 0 (pgRoundUp sz/PGSIZE) true
      else pure ()) ph (fun _ ph' => ∃ T', Became ph ph' T T' ∧ LeavesIn (fun _ => False) T')
      never := by
    split_ifs with hpos
    · rw [pgRoundUp_eq hsz, Nat.mul_div_cancel _ (by decide)]
      have hrun := uvmunmap_post true (pgs sz) (n := 0) (by
        rw [Nat.zero_add]
        exact hlim.trans (by decide)) hm hh (by
        intro m a _ hlt ha
        have hm' : m < TFVPN := by omega
        exact (hleaf m a (hm'.trans (by decide)) ha).2.1.mpr hm')
      apply post_imp hrun
      rintro _ ph' ⟨T',hb,hleaf'⟩
      refine ⟨T', hb, ?_⟩
      intro m a hmv ha
      rw [hleaf' m hmv] at ha
      split_ifs at ha with hin
      have := (hleaf m a hmv ha).1
      omega
    · refine ⟨T, Became.refl hm, ?_⟩
      intro m a hmv ha
      have hlt := (hleaf m a hmv ha).1
      have hzero : sz = 0 := by omega
      rw [hzero] at hlt
      exact absurd hlt (Nat.not_lt_zero m)
  apply post_bind_of hunmap
  rintro _ ph1 ⟨T1,hb1,hleaf1⟩
  have hfree := freewalk_post hb1.maps (hb1.holds hh) (noLeaf_of_leavesIn hleaf1)
  rw [hb1.root] at hfree
  exact post_imp hfree (fun _ _ => hb1.moves.trans)

end Xv6
