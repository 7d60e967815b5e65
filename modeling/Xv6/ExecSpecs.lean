import Xv6.ProcCalls

/-! The parts of `kexec` that work on the new address space, and the argument buffers. -/
namespace Xv6
open StateOutcome RadixTree

variable {sz : ℕ} {ph : Phys}

section Bound
variable {ph : Phys} {T : PageTree 2}

theorem leaf_injective (hh : Holds ph (pages 2 T)) {n m : ℕ} {a b : Leaf} (hn : n < NVPN)
    (hm : m < NVPN) (ha : leafOf T n = some a) (hb : leafOf T m = some b) (hao : a.own = true)
    (hbo : b.own = true) (hab : a.ppn = b.ppn) : n = m := by
  have hpos : ∀ k c, leafOf T k = some c → c.own = true →
      pageAt Leaf.owned 2 T (keyPath px 2 (k*PGSIZE)) = some c.ppn := by
    intro k c hc hco
    rw [pageAt_keyPath]
    change (leafOf T k).bind Leaf.owned = _
    rw [hc, Option.bind_some, Leaf.owned, if_pos hco]
  have hone : pages 2 T a.ppn ≤ 1 := by
    have := hh.once a.ppn
    omega
  have hpath := (pageAt_tallies Leaf.owned 2 T).unique a.ppn hone _ _ (hpos n a ha hao)
    (hab ▸ hpos m b hb hbo)
  exact (vpn_eq_iff hn hm).mp (keyPath_inj hpath)

theorem leaf_held {n : ℕ} {a : Leaf} (ha : leafOf T n = some a) (hao : a.own = true) :
    0 < pages 2 T a.ppn := by
  apply ((pageAt_tallies Leaf.owned 2 T).exists_iff a.ppn).mpr
  refine ⟨keyPath px 2 (n*PGSIZE), ?_⟩
  rw [pageAt_keyPath]
  change (leafOf T n).bind Leaf.owned = _
  rw [ha, Option.bind_some, Leaf.owned, if_pos hao]

/-- An address space with all its pages is not larger than the memory of the machine. -/
theorem Space.pgs_le_physpages {q : ℕ} (h : Space ph.mem q sz T) (hh : Holds ph (pages 2 T))
    (hf : Full sz T) : pgs sz ≤ PHYSPAGES := by
  have hlim := pgs_le h.size
  have hvpn : ∀ n, n < pgs sz → n < TFVPN := fun n hn => by omega
  choose f hleaf _ using hf
  have hcard : (Finset.range (pgs sz)).card ≤ (Finset.range PHYSPAGES).card := by
    apply Finset.card_le_card_of_injOn (fun n => if hn : n < pgs sz then (f n hn).ppn else 0)
    · intro n hn
      have hn' := Finset.mem_range.mp (Finset.mem_coe.mp hn)
      have hpos := leaf_held (hleaf n hn') (h.own (hvpn n hn') (hleaf n hn'))
      have hrange := hh.range (f n hn').ppn (by omega)
      dsimp only
      rw [dif_pos hn', Finset.coe_range]
      exact hrange.2
    · intro n hn m hm heq
      have hn' := Finset.mem_range.mp (Finset.mem_coe.mp hn)
      have hm' := Finset.mem_range.mp (Finset.mem_coe.mp hm)
      simp only [dif_pos hn', dif_pos hm'] at heq
      have hlt : ∀ k, k < pgs sz → k < NVPN := fun k hk => (hvpn k hk).trans (by decide)
      exact leaf_injective hh (hlt n hn') (hlt m hm') (hleaf n hn') (hleaf m hm')
        (h.own (hvpn n hn') (hleaf n hn')) (h.own (hvpn m hm') (hleaf m hm')) heq
  rwa [Finset.card_range, Finset.card_range] at hcard

theorem Holds.free_length {X : ℕ → ℕ} (hh : Holds ph X) : ph.free.length ≤ PHYSPAGES := by
  have hnodup : ph.free.Nodup := by
    rw [List.nodup_iff_count_le_one]
    intro a
    have := hh.once a
    omega
  have hsub : ph.free.toFinset ⊆ Finset.range PHYSPAGES := by
    intro a ha
    have hpos := List.count_pos_iff.mpr (List.mem_toFinset.mp ha)
    exact Finset.mem_range.mpr (hh.range a (by omega)).2
  have hcard := Finset.card_le_card hsub
  rwa [List.toFinset_card_of_nodup hnodup, Finset.card_range] at hcard

/-- `kexec` does not run into the trapframe, because memory runs out before. -/
theorem Space.uvmalloc_full {q : ℕ} (xperm : Perm) (newsz : ℕ) (h : Space ph.mem q sz T)
    (hh : Holds ph (pages 2 T)) (hsz : pgs sz ≤ PHYSPAGES) :
    post (Xv6.uvmalloc q sz newsz xperm) ph (fun r ph' => ∃ T', Became ph ph' T T' ∧
      Space ph'.mem q (if r = 0 then sz else r) T' ∧
      (r ≠ 0 → r = max sz newsz ∧ Grown xperm (pgs sz) (pgs r-pgs sz) T T'))
      never := by
  apply post_mono (h.uvmalloc xperm newsz hh) (fun _ _ hq => hq)
  rintro _ _ ⟨⟨_,hfar⟩,_⟩
  have hfree := hh.free_length
  have hroom : 2*PHYSPAGES ≤ TFVPN := by decide
  omega

theorem Full.grown {xperm : Perm} {sz' : ℕ} {T' : PageTree 2} (h : Full sz T)
    (hsz' : sz' ≤ TRAPFRAME)
    (hg : Grown xperm (pgs sz) (pgs sz'-pgs sz) T T') : Full sz' T' := by
  intro n hn
  have hlim := pgs_le hsz'
  have hnv : n < NVPN := (hn.trans_le hlim).trans (by decide)
  by_cases hold : n < pgs sz
  · rw [(hg n hnv).2 (by omega)]
    exact h n hold
  · obtain ⟨q,hq⟩ := (hg n hnv).1 (by omega)
    exact ⟨_,hq,rfl⟩

end Bound

theorem loadLoop_post (n : ℕ) {T : PageTree 2} {m : ℕ} (reads : ℕ)
    (hm : Maps ph.mem 2 T) (hlim : m+n ≤ TFVPN)
    (hmapped : ∀ j, m ≤ j → j < m+n → ∃ a, leafOf T j = some a ∧ a.u = true) :
    post (loadLoop (rootPage 2 T) n (m*PGSIZE) reads) ph (fun _ ph' => ph' = ph)
      never := by
  induction n generalizing m reads with
  | zero => exact rfl
  | succ n ih =>
    obtain ⟨a,ha,hu⟩ := hmapped m (Nat.le_refl m) (by omega)
    have hva := vpn_lt (show m < TFVPN by omega)
    apply post_bind_of (walkaddr_post m hm)
    rintro r ph1 ⟨rfl,rfl⟩
    rw [if_neg (by omega), ha, Option.bind_some, if_pos hu]
    cases reads with
    | zero => exact rfl
    | succ reads =>
      rw [show m*PGSIZE+PGSIZE = (m+1)*PGSIZE by ring]
      exact ih reads (by omega) (fun j hle hlt => hmapped j (by omega) (by omega))

theorem pushArgs_post (own ownsz stackbase top : ℕ) {T : PageTree 2}
    (lens : List ℕ) (argc sp : ℕ) (hm : Maps ph.mem 2 T) (hbase : 0 < stackbase)
    (htop : top ≤ TRAPFRAME) (hsp : sp ≤ top)
    (hmapped : ∀ n, stackbase/PGSIZE ≤ n → n*PGSIZE < top →
      ∃ a, leafOf T n = some a ∧ a.u = true ∧ a.w = true) :
    post (pushArgs own ownsz (rootPage 2 T) stackbase lens argc sp) ph (fun _ ph' => ph' = ph)
      never := by
  have hcopy : ∀ sp1 len, stackbase ≤ sp1 → sp1+len ≤ top →
      post (copyout own ownsz (rootPage 2 T) sp1 len) ph (fun _ ph' => ph' = ph)
        never := by
    intro sp1 len hle hlen
    apply copyoutLoop_mapped own ownsz len sp1 len hm (hlen.trans htop)
    intro n hn hlt
    exact hmapped n ((Nat.div_le_div_right hle).trans hn) (hlt.trans_le hlen)
  induction lens generalizing argc sp with
  | nil =>
    unfold pushArgs
    dsimp only
    split_ifs with hlow
    · exact rfl
    · exact hcopy _ _ (by omega) (by omega)
  | cons len lens ih =>
    unfold pushArgs
    dsimp only
    split_ifs with hmax hlow
    · exact rfl
    · exact rfl
    · apply post_bind_of (hcopy _ _ (by omega) (by omega))
      rintro ok _ rfl
      cases ok with
      | true => exact ih _ _ (by omega)
      | false => exact rfl

theorem freeArgs_loop (args : List Arg)
    (hh : Holds ph (fun a => (args.filterMap Arg.page).count a)) :
    post (args.forM fun a => a.page.elim (pure ()) kfree) ph (fun _ ph' =>
      Moves ph ph' (fun a => (args.filterMap Arg.page).count a) (fun _ => 0))
      never := by
  induction args generalizing ph with
  | nil => exact Moves.refl ph _
  | cons arg args ih =>
    have hcount : ∀ a, ((arg :: args).filterMap Arg.page).count a =
        arg.page.elim 0 (fun q => single q a)+(args.filterMap Arg.page).count a := by
      intro a
      rw [List.filterMap_cons]
      cases arg.page with
      | none => exact (Nat.zero_add _).symm
      | some q =>
        rw [List.count_cons, Option.elim_some, single]
        simp only [beq_iff_eq]
        omega
    apply post_bind_of (kfree_elim arg.page (hh.mono (fun a => by rw [hcount]; omega)))
    intro _ ph1 hmove1
    have hframe := (hmove1.frame (fun a => (args.filterMap Arg.page).count a)).congr
      (fun a => (hcount a).symm) (fun a => Nat.zero_add _)
    exact post_imp (ih (hframe.holds hh)) (fun _ _ => hframe.trans)

end Xv6
