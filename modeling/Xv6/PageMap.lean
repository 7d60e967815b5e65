import Xv6.PageWalk

/-! A page table as a partial function from virtual page numbers to leaves. -/
namespace Xv6
open StateOutcome RadixTree Function

/-- The number of virtual pages that three levels of tables can name. -/
abbrev NVPN : ℕ := 2^27

/-- The virtual page number of the trapframe; the trampoline is the next one. -/
abbrev TFVPN : ℕ := TRAPFRAME/PGSIZE

/-- The leaf for virtual page `n`. -/
def leafOf (T : PageTree 2) (n : ℕ) : Option Leaf := lookup px 2 T (n*PGSIZE)

theorem px_vpn (j n : ℕ) : (px j (n*PGSIZE)).val = n/2^(9*j) % 512 := by
  have hdiv : n*PGSIZE/2^(12+9*j) = n/2^(9*j) := by
    rw [pow_add, ← Nat.div_div_eq_div_mul, show n*PGSIZE/2^12 = n by
      exact Nat.mul_div_cancel n (by decide)]
  change n*PGSIZE/2^(12+9*j) % 512 = _
  rw [hdiv]

variable {n : ℕ} {T : PageTree 2} {ph : Phys}

theorem vpn_eq_iff {m : ℕ} (hn : n < NVPN) (hm : m < NVPN) :
    (∀ j, j ≤ 2 → px j (n*PGSIZE) = px j (m*PGSIZE)) ↔ n = m := by
  constructor
  · intro h
    have hval : ∀ j, j ≤ 2 → n/2^(9*j) % 512 = m/2^(9*j) % 512 := by
      intro j hj
      rw [← px_vpn, ← px_vpn, h j hj]
    have h0 := hval 0 (by omega)
    have h1 := hval 1 (by omega)
    have h2 := hval 2 (by omega)
    norm_num at hn hm
    omega
  · rintro rfl _ _
    rfl

theorem px_mod (j k : ℕ) (hj : j ≤ 2) : px j (k/PGSIZE % NVPN*PGSIZE) = px j k := by
  apply Fin.ext
  have hk : k/2^(12+9*j) = k/PGSIZE/2^(9*j) := by
    rw [pow_add, ← Nat.div_div_eq_div_mul]
    norm_num
  rw [px_vpn]
  change _ = k/2^(12+9*j) % 512
  rw [hk, NVPN]
  obtain rfl | rfl | rfl : j = 0 ∨ j = 1 ∨ j = 2 := by omega
  · norm_num
  · omega
  · omega

/-- Every address is looked up like the page number it has in the three digits. -/
theorem lookup_eq_leafOf (T : PageTree 2) (k : ℕ) : lookup px 2 T k = leafOf T (k/PGSIZE % NVPN) :=
  (lookup_congr (fun j => px_mod j k)).symm

theorem px_digit (l : ℕ) (i : Fin 512) (k : ℕ) :
    ∃ k', px l k' = i ∧ ∀ j, j < l → px j k' = px j k := by
  refine ⟨k % 2^(12+9*l)+i.val*2^(12+9*l), ?_, ?_⟩
  · apply Fin.ext
    have hpos : 0 < 2^(12+9*l) := Nat.two_pow_pos _
    change (k % 2^(12+9*l)+i.val*2^(12+9*l))/2^(12+9*l) % 512 = i.val
    rw [Nat.add_mul_div_right _ _ hpos, Nat.div_eq_of_lt (Nat.mod_lt _ hpos), Nat.zero_add,
      Nat.mod_eq_of_lt i.isLt]
  · intro j hj
    apply Fin.ext
    change (k % 2^(12+9*l)+i.val*2^(12+9*l))/2^(12+9*j) % 512 = k/2^(12+9*j) % 512
    -- the digit of level j is below the part that was replaced
    obtain ⟨d,rfl⟩ : ∃ d, l = j+1+d := ⟨l-(j+1), by omega⟩
    have hpow : 2^(12+9*(j+1+d)) = 2^(12+9*j)*(512*2^(9*d)) := by
      rw [show 12+9*(j+1+d) = (12+9*j)+(9+9*d) by omega, pow_add, pow_add 2 9 (9*d)]
      norm_num
    have hA : 0 < 2^(12+9*j) := Nat.two_pow_pos _
    rw [hpow]
    generalize 2^(12+9*j) = A at *
    generalize 2^(9*d) = C at *
    rw [show i.val*(A*(512*C)) = i.val*(512*C)*A by ring, Nat.add_mul_div_right _ _ hA,
      Nat.mod_mul_right_div_self, show i.val*(512*C) = 512*(i.val*C) by ring,
      Nat.add_mul_mod_self_left, Nat.mod_mul_right_mod]

theorem leafOf_setLeaf {m : ℕ} (hn : n < NVPN) (hm : m < NVPN)
    (hpath : leafPage px 2 T (n*PGSIZE) ≠ none) (x : Option Leaf) :
    leafOf (setLeaf px 2 T (n*PGSIZE) x) m = if m = n then x else leafOf T m := by
  rw [leafOf, lookup_setLeaf hpath]
  simp only [vpn_eq_iff hm hn]
  rfl

theorem pages_setLeaf (hpath : leafPage px 2 T (n*PGSIZE) ≠ none) (x : Option Leaf) (a : ℕ) :
    pages 2 (setLeaf px 2 T (n*PGSIZE) x) a+
      (leafOf T n).elim 0 (fun b => leafTally Leaf.owned b a) =
      pages 2 T a+x.elim 0 (fun b => leafTally Leaf.owned b a) :=
  tally_setLeaf hpath x a

theorem leafTally_owned {b : Leaf} (hb : b.own = true) (a : ℕ) :
    leafTally Leaf.owned b a = single b.ppn a := by
  simp [leafTally, Leaf.owned, hb, single]

theorem leafTally_not_owned {b : Leaf} (hb : b.own = false) (a : ℕ) :
    leafTally Leaf.owned b a = 0 := by
  simp [leafTally, Leaf.owned, hb]

theorem readPte_post (hm : Maps ph.mem 2 T) {va : ℕ} (hva : va < MAXVA) :
    post (readPte (rootPage 2 T) va) ph (fun r ph' => ph' = ph ∧
      r = (lookup px 2 T va).map Leaf.pte) never := by
  unfold readPte walk
  rw [if_neg (by omega)]
  apply post_bind_of (walkLoop_read va hm)
  rintro r ph1 ⟨rfl,hr⟩
  cases hq : leafPage px 2 T va with
  | none =>
    rw [hq] at hr
    subst hr
    exact ⟨rfl, by rw [lookup_of_leafPage_none hq]; rfl⟩
  | some q =>
    rw [hq] at hr
    subst hr
    exact ⟨rfl, hm.leaf hq⟩

theorem Maps.store (hm : Maps ph.mem 2 T)
    (hone : ∀ a, pages 2 T a ≤ 1) {q : ℕ} (hq : leafPage px 2 T (n*PGSIZE) = some q)
    (x : Option Leaf) :
    Maps (update ph.mem q (update (ph.mem q) (px 0 (n*PGSIZE))
      (x.map Leaf.pte))) 2 (setLeaf px 2 T (n*PGSIZE) x) :=
  Rep.setLeaf hm hq hone x

theorem mappages_one (pagetable n pa : ℕ) (perm : Perm) :
    mappages pagetable (n*PGSIZE) PGSIZE pa perm = mapLoop pagetable perm 1 (n*PGSIZE) pa := by
  unfold mappages
  rw [if_neg (by simp), if_neg (by decide)]
  rfl

/-- One page is mapped where nothing was, or memory ran out for the tables on its path. Where
a page is mapped already, the kernel stops. -/
theorem mappages_post (a : Leaf) (hn : n < MAXVA/PGSIZE)
    (hm : Maps ph.mem 2 T) (hh : Holds ph (pages 2 T)) :
    post (mappages (rootPage 2 T) (n*PGSIZE) PGSIZE a.ppn ⟨true,a.w,a.x,a.u⟩) ph
      (fun r ph' => ∃ T', rootPage 2 T' = rootPage 2 T ∧ Maps ph'.mem 2 T' ∧
        ph'.free.length ≤ ph.free.length ∧
        if r then leafOf T n = none ∧
          (∀ m, m < NVPN → leafOf T' m = if m = n then some a else leafOf T m) ∧
          Moves ph ph' (fun c => pages 2 T c+leafTally Leaf.owned a c) (pages 2 T')
        else (∀ m, leafOf T' m = leafOf T m) ∧ Moves ph ph' (pages 2 T) (pages 2 T'))
      (fun e _ => leafOf T n ≠ none ∧ e = .panic "mappages: remap") := by
  have hva : n*PGSIZE < MAXVA := by
    rw [MAXVA, PGSIZE] at *
    norm_num at *
    omega
  have hvpn : n < NVPN := by
    rw [NVPN]
    norm_num at *
    omega
  rw [mappages_one]
  unfold mapLoop walk
  rw [if_neg (by omega)]
  apply post_bind_of (post_safe (walkLoop_alloc (n*PGSIZE) hm hh))
  rintro r ph1 ⟨T1,hroot1,hm1,hlook1,hmove1,hlen1,hres1⟩
  cases r with
  | none =>
    exact ⟨T1, hroot1, hm1, hlen1, fun m => hlook1 (m*PGSIZE), hmove1⟩
  | some slot =>
    obtain ⟨q,rfl,hq⟩ := hres1 slot rfl
    have hentry : ph1.mem q (px 0 (n*PGSIZE)) = (leafOf T n).map Leaf.pte := by
      rw [hm1.leaf hq, hlook1]
      rfl
    cases hnone : leafOf T n with
    | some b =>
      dsimp only
      rw [post_bind, post_get, hentry, hnone, if_pos (by simp)]
      exact ⟨by simp, rfl⟩
    | none =>
      have hempty : ph1.mem q (px 0 (n*PGSIZE)) = none := by rw [hentry, hnone]; rfl
      have hone : ∀ c, pages 2 T1 c ≤ 1 := by
        intro c
        have := (hmove1.holds hh).once c
        omega
      have hpath : leafPage px 2 T1 (n*PGSIZE) ≠ none := by rw [hq]; simp
      have hleaf1 : leafOf T1 n = none := (hlook1 (n*PGSIZE)).trans hnone
      dsimp only
      rw [post_bind, post_get, hempty, if_neg (by simp), post_bind, setPte, post_modify]
      refine ⟨setLeaf px 2 T1 (n*PGSIZE) (some a), ?_, hm1.store hone hq (some a), hlen1, rfl,
        ?_, ?_⟩
      · rw [rootPage_setLeaf, hroot1]
      · intro m hmv
        rw [leafOf_setLeaf hvpn hmv hpath]
        split_ifs
        · rfl
        · exact hlook1 (m*PGSIZE)
      · refine ⟨?_, ?_, hmove1.endPage⟩
        · intro c
          have hcount := hmove1.count c
          have hset := pages_setLeaf hpath (some a) c
          rw [hleaf1, Option.elim_none, Option.elim_some] at hset
          dsimp only
          omega
        · intro c hc
          have hcount := hmove1.count c
          have hcq : c ≠ q := by
            rintro rfl
            have : 0 < pages 2 T1 c := leafPage_tally hq
            omega
          change update ph1.mem q _ c = _
          rw [update_of_ne hcq]
          exact hmove1.outside c (by omega)

/-- The page that `kfree` gets in `uvmunmap`, and the entry that is then cleared. -/
theorem Maps.clear {ph1 : Phys} (hm : Maps ph.mem 2 T)
    (hh : Holds ph (pages 2 T)) {q : ℕ} (hq : leafPage px 2 T (n*PGSIZE) = some q) {a : Leaf}
    (ha : leafOf T n = some a) (hmove : Moves ph ph1 (leafTally Leaf.owned a) (fun _ => 0))
    (hother : ∀ c, leafTally Leaf.owned a c = 0 → ph1.mem c = ph.mem c) :
    Maps (update ph1.mem q (update (ph1.mem q) (px 0 (n*PGSIZE)) none)) 2
        (setLeaf px 2 T (n*PGSIZE) none) ∧
      Moves ph { ph1 with
          mem := update ph1.mem q (update (ph1.mem q) (px 0 (n*PGSIZE)) none) }
        (pages 2 T) (pages 2 (setLeaf px 2 T (n*PGSIZE) none)) := by
  have hpath : leafPage px 2 T (n*PGSIZE) ≠ none := by rw [hq]; simp
  have hset : ∀ c, pages 2 (setLeaf px 2 T (n*PGSIZE) none) c+leafTally Leaf.owned a c =
      pages 2 T c := by
    intro c
    have := pages_setLeaf hpath none c
    rw [ha, Option.elim_some, Option.elim_none] at this
    omega
  have hone : ∀ c, pages 2 T c ≤ 1 := by
    intro c
    have := hh.once c
    omega
  have hqpos : 0 < pages 2 (setLeaf px 2 T (n*PGSIZE) none) q := by
    apply leafPage_tally
    rw [leafPage_setLeaf, hq]
  -- the leaf's page is none of the tables
  have hsame : ∀ c, 0 < pages 2 (setLeaf px 2 T (n*PGSIZE) none) c → ph1.mem c = ph.mem c := by
    intro c hc
    apply hother
    have := hset c
    have := hone c
    omega
  refine ⟨?_, ?_, ?_, hmove.endPage⟩
  · apply Maps.congr (hm.store hone hq none)
    intro c hc
    by_cases hcq : c = q
    · rw [hcq, update_self, update_self, hsame q hqpos, Option.map_none]
    · rw [update_of_ne hcq, update_of_ne hcq, hsame c hc]
  · intro c
    have := hset c
    have := hmove.count c
    dsimp only at this ⊢
    omega
  · intro c hc
    have := hset c
    have hcq : c ≠ q := by
      rintro rfl
      omega
    change update ph1.mem q _ c = _
    rw [update_of_ne hcq]
    exact hmove.outside c (by omega)

/-- One page is unmapped; whether its physical page is freed has to agree with whether the
table owns it. -/
theorem unmapPage_post (doFree : Bool)
    (hn : n < MAXVA/PGSIZE) (hm : Maps ph.mem 2 T) (hh : Holds ph (pages 2 T))
    (hown : ∀ a, leafOf T n = some a → a.own = doFree) :
    post (unmapPage (rootPage 2 T) (n*PGSIZE) doFree) ph (fun _ ph' => ∃ T',
      rootPage 2 T' = rootPage 2 T ∧ Maps ph'.mem 2 T' ∧
      (∀ m, m < NVPN → leafOf T' m = if m = n then none else leafOf T m) ∧
      Moves ph ph' (pages 2 T) (pages 2 T')) never := by
  have hva : n*PGSIZE < MAXVA := by
    rw [MAXVA, PGSIZE] at *
    norm_num at *
    omega
  have hvpn : n < NVPN := by
    rw [MAXVA, PGSIZE] at hn
    rw [NVPN]
    norm_num at *
    omega
  have hstay : leafOf T n = none → ∀ m, m < NVPN →
      leafOf T m = if m = n then none else leafOf T m := by
    intro hnone m _
    split_ifs with he
    · rw [he, hnone]
    · rfl
  unfold unmapPage walk
  rw [if_neg (by omega)]
  apply post_bind_of (walkLoop_read (n*PGSIZE) hm)
  rintro r ph1 ⟨rfl,rfl⟩
  cases hq : leafPage px 2 T (n*PGSIZE) with
  | none => exact ⟨T, rfl, hm, hstay (lookup_of_leafPage_none hq), Moves.refl _ _⟩
  | some q =>
    have hentry : ph1.mem q (px 0 (n*PGSIZE)) = (leafOf T n).map Leaf.pte := hm.leaf hq
    have hpath : leafPage px 2 T (n*PGSIZE) ≠ none := by rw [hq]; simp
    rw [Option.map_some]
    dsimp only
    rw [post_bind, post_get, hentry]
    cases ha : leafOf T n with
    | none => exact ⟨T, rfl, hm, hstay ha, Moves.refl _ _⟩
    | some a =>
      have hle : ∀ c, leafTally Leaf.owned a c ≤ pages 2 T c := by
        intro c
        have := pages_setLeaf hpath none c
        rw [ha, Option.elim_some, Option.elim_none] at this
        omega
      have hfree : post (if doFree then kfree a.pte.ppn else pure ()) ph1 (fun _ ph2 =>
          Moves ph1 ph2 (leafTally Leaf.owned a) (fun _ => 0) ∧
          ∀ c, leafTally Leaf.owned a c = 0 → ph2.mem c = ph1.mem c) never := by
        cases hd : doFree with
        | true =>
          have htally := funext (leafTally_owned ((hown a ha).trans hd))
          rw [if_pos rfl, htally]
          apply post_imp (kfree_post (hh.mono (htally ▸ hle)))
          rintro _ ph2 ⟨hmove,hother⟩
          refine ⟨hmove, fun c hc => hother c ?_⟩
          rintro rfl
          simp [single] at hc
          exact hc rfl
        | false =>
          have htally := funext (leafTally_not_owned ((hown a ha).trans hd))
          rw [htally]
          exact ⟨Moves.refl _ _, fun _ _ => rfl⟩
      rw [Option.map_some]
      dsimp only
      apply post_bind_of hfree
      rintro _ ph2 ⟨hmove2,hother2⟩
      obtain ⟨hm3,hmove3⟩ := hm.clear hh hq ha hmove2 hother2
      refine ⟨_, rootPage_setLeaf _ _ _ _, hm3, ?_, hmove3⟩
      intro m hmv
      exact leafOf_setLeaf hvpn hmv hpath none

theorem unmapLoop_post (doFree : Bool) (cnt : ℕ)
    (hn : n+cnt ≤ MAXVA/PGSIZE) (hm : Maps ph.mem 2 T) (hh : Holds ph (pages 2 T))
    (hown : ∀ m a, n ≤ m → m < n+cnt → leafOf T m = some a → a.own = doFree) :
    post (unmapLoop (rootPage 2 T) doFree cnt (n*PGSIZE)) ph (fun _ ph' => ∃ T',
      rootPage 2 T' = rootPage 2 T ∧ Maps ph'.mem 2 T' ∧
      (∀ m, m < NVPN → leafOf T' m = if n ≤ m ∧ m < n+cnt then none else leafOf T m) ∧
      Moves ph ph' (pages 2 T) (pages 2 T')) never := by
  induction cnt generalizing ph T n with
  | zero =>
    refine ⟨T, rfl, hm, ?_, Moves.refl _ _⟩
    intro m _
    rw [if_neg (by omega)]
  | succ cnt ih =>
    apply post_bind_of (unmapPage_post doFree (by omega) hm hh
      (fun a ha => hown n a (by omega) (by omega) ha))
    rintro _ ph1 ⟨T1,hroot1,hm1,hleaf1,hmove1⟩
    have hlim : n+(cnt+1) ≤ NVPN := by
      refine hn.trans ?_
      decide
    rw [← hroot1, show n*PGSIZE+PGSIZE = (n+1)*PGSIZE by ring]
    have hown1 : ∀ m a, n+1 ≤ m → m < n+1+cnt → leafOf T1 m = some a → a.own = doFree := by
      intro m a hle hlt ha
      rw [hleaf1 m (by omega), if_neg (by omega)] at ha
      exact hown m a (by omega) (by omega) ha
    apply post_imp (ih (by omega) hm1 (hmove1.holds hh) hown1)
    rintro _ ph2 ⟨T2,hroot2,hm2,hleaf2,hmove2⟩
    refine ⟨T2, hroot2, hm2, ?_, hmove1.trans hmove2⟩
    intro m hmv
    rw [hleaf2 m hmv, hleaf1 m hmv]
    split_ifs <;> first | rfl | omega

end Xv6
