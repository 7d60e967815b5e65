import Xv6.ExecSpecs

/-! The steps of `sys_exec` and `kexec` keep the invariant. -/
namespace Xv6
open StateOutcome RadixTree Function

variable {T : PageTree 2} {e : Option (Fin NPROC)} {ph' : Phys}

section Calls
variable {k : Kernel} {tr : Fin NPROC → Trees} {p : Fin NPROC}

theorem Pages.setImage (h : Pages k tr) (i' : Option (PageTree 2)) (pr : Proc)
    (hmove : Moves k.phys ph' (fun a => (tr p).image.elim 0 (fun T => pages 2 T a))
      (fun a => i'.elim 0 (fun T => pages 2 T a)))
    (hpr : pr.trapframe = (k.proc p).trapframe ∧ pr.argv = (k.proc p).argv ∧
      pr.pagetable = (k.proc p).pagetable ∧ pr.sz = (k.proc p).sz)
    (hrel : Option.Rel (fun (img : Image) T => Space ph'.mem img.pagetable img.sz T) pr.image i') :
    Pages ((k.withPhys ph').withProc p pr) (update tr p ⟨(tr p).table, i'⟩) := by
  obtain ⟨htf,hargv,hq,hsz⟩ := hpr
  apply h.change p
  · apply (hmove.frame (fun a => (k.proc p).trapframe.elim 0 (fun q => single q a)+
      (tr p).table.elim 0 (fun T => pages 2 T a)+(argPages (k.proc p)).count a)).congr
    · intro a
      rw [procHeld]
      omega
    · intro a
      rw [procHeld, htf, argPages, argPages, hargv]
      dsimp only
      omega
  · refine ⟨?_, hrel⟩
    rw [hq, hsz]
    apply rel_frame (h.spaces p).table hmove
    apply (h.holds p).mono
    intro a
    rw [procHeld]
    omega

theorem update_image_ne (tr : Fin NPROC → Trees) (p : Fin NPROC) (t : Trees) {p' : Fin NPROC}
    (hp : p' ≠ p) : (update tr p t p').image = (tr p').image := by
  rw [update_of_ne hp]

theorem KernelInv.atProc {pr : Proc} {t' : Trees}
    (h : KernelInv k tr e) (he : e = none ∨ e = some p)
    (hpages : Pages ((k.withPhys ph').withProc p pr) (update tr p t'))
    (hofile : pr.ofile = (k.proc p).ofile) (hsane : pr.Sane) (e' : Option (Fin NPROC))
    (hfull : some p ≠ e' → ∀ img T, pr.image = some img → t'.image = some T → Full img.sz T) :
    KernelInv ((k.withPhys ph').withProc p pr) (update tr p t') e' := by
  refine ⟨⟨hpages, h.opened.files, h.opened.counted.congr rfl ?_⟩, ?_, ?_⟩
  · intro p'
    by_cases hp : p' = p
    · rw [hp, withProc_self]
      exact hofile
    · rw [withProc_ne hp, withPhys_proc]
  · intro p'
    by_cases hp : p' = p
    · rw [hp, withProc_self]
      exact hsane
    · rw [withProc_ne hp]
      exact h.sane p'
  · intro p' hne img T hi hT
    by_cases hp : p' = p
    · rw [hp, withProc_self] at hi
      rw [hp, update_self] at hT
      exact hfull (hp ▸ hne) img T hi hT
    · rw [withProc_ne hp] at hi
      rw [update_image_ne tr p t' hp] at hT
      refine h.full p' ?_ img T hi hT
      rcases he with rfl | rfl
      · simp
      · simpa using hp

theorem Proc.Live.sane_of {pr pr' : Proc} (hp : pr.Live) (hs : pr.Sane)
    (hstate : pr'.state = pr.state) (htf : pr'.trapframe = pr.trapframe)
    (hq : pr'.pagetable.isSome) : pr'.Sane := by
  have hlive : pr'.Live := by
    unfold Proc.Live
    rw [hstate]
    exact hp
  rw [hlive.sane_iff, htf]
  exact ⟨(hp.sane_iff.mp hs).1, hq⟩

theorem freeArgs_post (h : KernelInv k tr none) (hp : (k.proc p).Live) :
    post (freeArgs p) k (fun _ => Kernel.Ready) never := by
  have hrun := freeArgs_loop (k.proc p).argv ((h.opened.pages.holds p).mono (fun a => by
    rw [procHeld, argPages]
    omega))
  unfold freeArgs
  rw [post_bind, post_get, post_bind, post_vm]
  apply post_imp hrun
  intro _ ph' hmove
  have hspaces := h.opened.pages.spaces p
  have hpages : Pages ((k.withPhys ph').withProc p { k.proc p with argv := [] })
      (update tr p (tr p)) := by
    apply h.opened.pages.change p
    · apply (hmove.frame (fun a => (k.proc p).trapframe.elim 0 (fun q => single q a)+
        (tr p).table.elim 0 (fun T => pages 2 T a)+
        (tr p).image.elim 0 (fun T => pages 2 T a))).congr
      · intro a
        rw [procHeld, argPages]
        omega
      · intro a
        simp [procHeld, argPages]
    · have hholds : ∀ t : Option (PageTree 2), (∀ a, t.elim 0 (fun T => pages 2 T a) ≤
          (tr p).table.elim 0 (fun T => pages 2 T a)+(tr p).image.elim 0 (fun T => pages 2 T a)) →
          Holds k.phys (fun a => ((k.proc p).argv.filterMap Arg.page).count a+
            t.elim 0 (fun T => pages 2 T a)) := by
        intro t ht
        apply (h.opened.pages.holds p).mono
        intro a
        have := ht a
        rw [procHeld, argPages]
        omega
      exact ⟨rel_frame hspaces.table hmove (hholds _ (fun a => by omega)),
        rel_frame hspaces.image hmove (hholds _ (fun a => by omega))⟩
  refine ⟨_, h.atProc (Or.inl rfl) hpages rfl ?_ none ?_⟩
  · exact hp.sane_of (h.sane p) rfl rfl (hp.sane_iff.mp (h.sane p)).2
  · exact h.full p

theorem execFailed_post (h : KernelInv k tr none) (hp : (k.proc p).Live) :
    post (execFailed p) k (fun _ => Kernel.Ready) (fun e _ => e = .panic "exec") := by
  unfold execFailed
  rw [post_bind, post_get]
  split_ifs
  · exact post_safe (freeArgs_post h hp)
  · exact rfl

theorem kexecBad_post (h : KernelInv k tr (some p)) (hp : (k.proc p).Live) :
    post (kexecBad p) k (fun _ => Kernel.Ready) (fun e _ => e = .panic "exec") := by
  have hfree := procFreepagetable_elim (h.opened.pages.spaces p).image
    ((h.opened.pages.holds p).mono (fun a => by
      rw [procHeld]
      omega))
  unfold kexecBad
  rw [post_bind, post_get, post_bind, post_vm]
  apply post_imp (post_safe hfree)
  intro _ ph' hmove
  have hpages := h.opened.pages.setImage none { k.proc p with image := none } hmove
    ⟨rfl,rfl,rfl,rfl⟩ Option.Rel.none
  have hinv := h.atProc (Or.inr rfl) hpages rfl
    (hp.sane_of (h.sane p) rfl rfl (hp.sane_iff.mp (h.sane p)).2) none
    (fun _ img T hi => absurd hi (by simp))
  apply execFailed_post hinv
  rw [withProc_self]
  exact hp

theorem KernelInv.weaken (h : KernelInv k tr none) : KernelInv k tr (some p) :=
  ⟨h.opened, h.sane, fun p' _ => h.full p' (by simp)⟩

theorem kexecBegin_post (h : KernelInv k tr none) (hp : (k.proc p).Live)
    (himg : (k.proc p).image = none) (found : Bool) :
    post (kexecBegin p found) k (fun _ => Kernel.Ready) (fun e _ => e = .panic "exec") := by
  obtain ⟨tf,htf⟩ := Option.isSome_iff_exists.mp (hp.sane_iff.mp (h.sane p)).1
  have himage := rel_none_left (himg ▸ (h.opened.pages.spaces p).image)
  unfold kexecBegin
  rw [post_bind, post_get, htf]
  dsimp only
  cases found with
  | false => exact kexecBad_post h.weaken hp
  | true =>
    rw [if_pos rfl, post_bind, post_vm]
    apply post_imp (post_safe (procPagetable_post tf ((h.opened.pages.holds p).mono
      (fun _ => Nat.zero_le _))))
    intro q ph' hq
    have hsane : ∀ img, Proc.Sane { k.proc p with image := img } := fun img =>
      hp.sane_of (h.sane p) rfl rfl (hp.sane_iff.mp (h.sane p)).2
    cases q with
    | none =>
      have hpages := h.opened.pages.setImage none { k.proc p with image := none }
        (hq.congr (fun a => by rw [himage]; rfl) (fun _ => rfl)) ⟨rfl,rfl,rfl,rfl⟩
        Option.Rel.none
      have hinv := h.atProc (Or.inl rfl) hpages rfl (hsane none) none
        (fun _ img T hi => absurd hi (by simp))
      apply kexecBad_post hinv.weaken
      rw [withProc_self]
      exact hp
    | some q =>
      obtain ⟨T,hs,hmove⟩ := hq
      have hpages := h.opened.pages.setImage (some T) { k.proc p with image := some ⟨q,0⟩ }
        (hmove.congr (fun a => by rw [himage]; rfl) (fun _ => rfl)) ⟨rfl,rfl,rfl,rfl⟩
        (Option.Rel.some hs)
      refine ⟨_, h.atProc (Or.inl rfl) hpages rfl (hsane _) none ?_⟩
      intro _ img T' hi _ n hn
      rw [← Option.some.inj hi, show pgs 0 = 0 by decide] at hn
      exact absurd hn (Nat.not_lt_zero n)

theorem KernelInv.image (h : KernelInv k tr e) {img : Image}
    (himg : (k.proc p).image = some img) : ∃ T, (tr p).image = some T ∧
      Space k.phys.mem img.pagetable img.sz T ∧ Holds k.phys (pages 2 T) := by
  obtain ⟨T,hT,hs⟩ := rel_some_left (himg ▸ (h.opened.pages.spaces p).image)
  refine ⟨T, hT, hs, (h.opened.pages.holds p).mono ?_⟩
  intro a
  rw [procHeld, hT, Option.elim_some]
  omega

theorem KernelInv.setImage {T' : PageTree 2}
    (h : KernelInv k tr e) (img' : Image) (he : e = none ∨ e = some p)
    (hp : (k.proc p).Live)
    (hT : (tr p).image = some T) (hb : Became k.phys ph' T T')
    (hs : Space ph'.mem img'.pagetable img'.sz T') :
    KernelInv ((k.withPhys ph').withProc p { k.proc p with image := some img' })
      (update tr p ⟨(tr p).table, some T'⟩) (some p) := by
  have hpages := h.opened.pages.setImage (some T') { k.proc p with image := some img' }
    (hb.moves.congr (fun a => by rw [hT]; rfl) (fun _ => rfl)) ⟨rfl,rfl,rfl,rfl⟩
    (Option.Rel.some hs)
  exact h.atProc he hpages rfl (hp.sane_of (h.sane p) rfl rfl (hp.sane_iff.mp (h.sane p)).2)
    (some p) (absurd rfl)

theorem KernelInv.close {img : Image} (h : KernelInv k tr (some p))
    (himg : (k.proc p).image = some img) (hT : (tr p).image = some T) (hf : Full img.sz T) :
    KernelInv k tr none := by
  refine ⟨h.opened, h.sane, ?_⟩
  intro p' _ img' T' hi hT'
  by_cases hp : p' = p
  · rw [hp, himg] at hi
    rw [hp, hT] at hT'
    rw [← Option.some.inj hi, ← Option.some.inj hT']
    exact hf
  · exact h.full p' (by simpa using hp) img' T' hi hT'

theorem segment_pages {vaddr memsz filesz n : ℕ} (hle : filesz ≤ memsz)
    (hn : n < vaddr/PGSIZE+(filesz % 2^32+PGSIZE-1)/PGSIZE) : n < pgs (vaddr+memsz) := by
  rw [pgs, PGSIZE]
  rw [PGSIZE] at hn
  omega

theorem kexecBad_errors (h : KernelInv k tr (some p)) (hp : (k.proc p).Live) :
    post (kexecBad p) k (fun _ => Kernel.Ready) (fun e _ => e = .asleep ∨ e = .panic "exec") :=
  post_errors (kexecBad_post h hp) (fun _ _ => Or.inr)

theorem kexecSegment_post (h : KernelInv k tr none) (hp : (k.proc p).Live)
    (hdr : Option ProgHdr) (reads : ℕ) :
    post (kexecSegment p hdr reads) k (fun _ => Kernel.Ready)
      (fun e _ => e = .asleep ∨ e = .panic "exec") := by
  unfold kexecSegment
  rw [post_bind, post_get]
  cases himg : (k.proc p).image with
  | none => exact Or.inl rfl
  | some img =>
    cases hdr with
    | none => exact kexecBad_errors h.weaken hp
    | some ph =>
      obtain ⟨T,hT,hs,hh⟩ := h.image himg
      have hfull := h.full p (by simp) img T himg hT
      dsimp only
      by_cases hload : ph.load = true
      swap
      · rw [if_pos (by simpa using hload)]
        exact ⟨tr,h⟩
      rw [if_neg (by simp [hload])]
      by_cases hcheck : ph.memsz < ph.filesz ∨ ph.vaddr+ph.memsz < ph.vaddr ∨
          ph.vaddr.toNat % PGSIZE ≠ 0
      · rw [if_pos hcheck]
        exact kexecBad_errors h.weaken hp
      rw [if_neg hcheck, post_bind, post_vm]
      apply post_imp (post_safe (hs.uvmalloc_full (flags2perm ph) (ph.vaddr+ph.memsz).toNat hh
        (hs.pgs_le_physpages hh hfull)))
      rintro r ph1 ⟨T1,hb1,hs1,hgrown⟩
      split_ifs at hs1 ⊢ with hr
      · have hinv := h.setImage img (Or.inl rfl) hp hT hb1 hs1
        rw [show ({ k.proc p with image := some img } : Proc) = k.proc p by rw [← himg],
          show (k.withPhys ph1).withProc p (k.proc p) = k.withPhys ph1 from
            withProc_same (k.withPhys ph1) p] at hinv
        exact kexecBad_errors hinv hp
      · obtain ⟨hmax,hg⟩ := hgrown hr
        have hinv := h.setImage ⟨img.pagetable,r⟩ (Or.inl rfl) hp hT hb1 hs1
        have hfull1 : Full r T1 := hfull.grown hs1.size hg
        rw [post_bind, post_setProc, withPhys_proc, post_bind, post_vm, withProc_phys,
          withPhys_phys]
        -- no wrap around: the end of the segment is the sum
        have hsum : (ph.vaddr+ph.memsz).toNat = ph.vaddr.toNat+ph.memsz.toNat := by
          have hadd := UInt64.toNat_add ph.vaddr ph.memsz
          have hlt : ¬(ph.vaddr+ph.memsz).toNat < ph.vaddr.toNat := fun hlt =>
            hcheck (Or.inr (Or.inl (UInt64.lt_iff_toNat_lt.mpr hlt)))
          have h2 := UInt64.toNat_lt ph.memsz
          omega
        have hal : ph.vaddr.toNat % PGSIZE = 0 := by
          by_contra hne
          exact hcheck (Or.inr (Or.inr hne))
        have hsize : ph.filesz.toNat ≤ ph.memsz.toNat := by
          by_contra hlt
          exact hcheck (Or.inl (UInt64.lt_iff_toNat_lt.mpr (by omega)))
        have hmapped : ∀ n, n < ph.vaddr.toNat/PGSIZE+
            (ph.filesz.toNat % 2^32+PGSIZE-1)/PGSIZE → n < pgs r := by
          intro n hn
          have hend := segment_pages hsize hn
          exact hend.trans_le (pgs_mono (by omega))
        have hload := loadLoop_post ((ph.filesz.toNat % 2^32+PGSIZE-1)/PGSIZE)
          (m := ph.vaddr.toNat/PGSIZE) reads hb1.maps (by
            by_contra hlt
            have := hmapped TFVPN (by omega)
            have := pgs_le hs1.size
            omega) (fun j _ hlt => hfull1 j (hmapped j hlt))
        rw [hs1.root, Nat.div_mul_cancel (Nat.dvd_of_mod_eq_zero hal)] at hload
        apply post_imp (post_safe hload)
        rintro ok _ rfl
        rw [withProc_withPhys]
        cases ok with
        | true =>
          exact ⟨_, hinv.close (by rw [withProc_self]) (by rw [update_self]) hfull1⟩
        | false =>
          refine kexecBad_errors hinv ?_
          rw [withProc_self]
          exact hp

/-- The switch to the new image: the old address space is freed, the new one takes its
place. -/
theorem KernelInv.commit (img : Image) {S : PageTree 2}
    (h : KernelInv k tr (some p)) (hp : (k.proc p).Live)
    (hown : (tr p).table = some S) (hT : (tr p).image = some T)
    (hs : Space k.phys.mem img.pagetable img.sz T)
    (hmove : Moves k.phys ph' (pages 2 S) (fun _ => 0)) :
    KernelInv ((k.withPhys ph').withProc p { k.proc p with
        pagetable := some img.pagetable
        sz := img.sz
        image := none }) (update tr p ⟨some T,none⟩) none := by
  have hholds := h.opened.pages.holds_image hown
  rw [hT] at hholds
  have hpages : Pages ((k.withPhys ph').withProc p { k.proc p with
      pagetable := some img.pagetable
      sz := img.sz
      image := none }) (update tr p ⟨some T,none⟩) := by
    apply h.opened.pages.change p
    · apply (hmove.frame (fun a => (k.proc p).trapframe.elim 0 (fun q => single q a)+
        pages 2 T a+(argPages (k.proc p)).count a)).congr
      · intro a
        rw [procHeld, hown, hT, Option.elim_some, Option.elim_some]
        omega
      · intro a
        rw [procHeld, Option.elim_some, Option.elim_none, argPages, argPages]
        dsimp only
        omega
    · exact ⟨Option.Rel.some (hs.frame hmove hholds), Option.Rel.none⟩
  exact h.atProc (Or.inr rfl) hpages rfl (hp.sane_of (h.sane p) rfl rfl rfl) none
    (fun _ img T hi => absurd hi (by simp))

theorem stack_pages {m r : ℕ} (h : r = m*PGSIZE+(USERSTACK+1)*PGSIZE) :
    r-(USERSTACK+1)*PGSIZE = m*PGSIZE ∧ r-USERSTACK*PGSIZE = (m+1)*PGSIZE ∧ pgs r = m+2 := by
  refine ⟨by rw [h, Nat.add_sub_cancel], ?_, ?_⟩
  · rw [h, PGSIZE]
    omega
  · rw [h, ← Nat.add_mul, pgs_mul]

theorem kexecCommit_post (h : KernelInv k tr none) (hp : (k.proc p).Live) :
    post (kexecCommit p) k (fun _ => Kernel.Ready)
      (fun e _ => e = .asleep ∨ e = .panic "exec") := by
  obtain ⟨own,hown⟩ := h.pagetable hp
  obtain ⟨S,hS,hsS,_⟩ := h.opened.pages.table hown
  apply post_bind_of (post_safe (pagetableOf_post hown))
  rintro _ _ ⟨hk,hr⟩
  rw [hk, hr, post_bind, post_get]
  cases himg : (k.proc p).image with
  | none => exact Or.inl rfl
  | some img =>
    obtain ⟨T,hT,hs,hh⟩ := h.image himg
    have hfull := h.full p (by simp) img T himg hT
    have hpgs := hs.pgs_le_physpages hh hfull
    have hround := pgRoundUp_eq hs.size
    obtain ⟨sz,hsz⟩ : ∃ sz, sz = pgRoundUp img.sz := ⟨_,rfl⟩
    have hpgs' : pgs sz = pgs img.sz := by rw [hsz, hround, pgs_mul]
    have hTF : sz+(USERSTACK+1)*PGSIZE ≤ TRAPFRAME := by
      have hmul := Nat.mul_le_mul_right PGSIZE hpgs
      have hroom : PHYSPAGES*PGSIZE+(USERSTACK+1)*PGSIZE ≤ TRAPFRAME := by decide
      rw [hsz, hround]
      exact (Nat.add_le_add_right hmul _).trans hroom
    have hs' : Space k.phys.mem img.pagetable sz T := by
      refine ⟨hs.root, hs.maps, ?_, hs.top, (Nat.le_add_right _ _).trans hTF⟩
      intro n a hn ha
      have := hs.leaves n a hn ha
      unfold spaceVpn at this ⊢
      rwa [hpgs']
    have hnew : (sz+(USERSTACK+1)*PGSIZE) % 2^64 = sz+(USERSTACK+1)*PGSIZE := by
      apply Nat.mod_eq_of_lt
      exact hTF.trans_lt (by decide)
    obtain ⟨newsz,hnewsz⟩ : ∃ newsz, newsz = sz+(USERSTACK+1)*PGSIZE := ⟨_,rfl⟩
    dsimp only
    rw [← hsz, hnew, ← hnewsz, post_bind, post_vm]
    apply post_imp (post_safe (hs'.uvmalloc_full ⟨false,true,false,false⟩ newsz hh (hpgs' ▸ hpgs)))
    rintro r ph1 ⟨T1,hb1,hs1,hgrown⟩
    split_ifs at hs1 ⊢ with hr0
    · rw [post_bind, post_setProc]
      refine kexecBad_errors (h.setImage ⟨img.pagetable,sz⟩ (Or.inl rfl) hp hT hb1 hs1) ?_
      rw [withProc_self]
      exact hp
    · have hmax := (hgrown hr0).1
      have hg := (hgrown hr0).2
      have hrsz : r = sz+(USERSTACK+1)*PGSIZE := by
        rw [hmax, ← hnewsz]
        exact Nat.max_eq_right (hnewsz ▸ Nat.le_add_right _ _)
      have hpage := hsz.trans hround
      have hpages := stack_pages (m := pgs img.sz) (r := r) (by rw [hrsz, hpage])
      have hguard := hpages.1
      have hstack := hpages.2.1
      have hpgsr := hpages.2.2
      clear hpages
      clear hnew hTF hnewsz hmax hround hrsz
      have hlim := pgs_le hs1.size
      have hnv : ∀ n, n < pgs r → n < NVPN := fun n hn => (hn.trans_le hlim).trans (by decide)
      have hgrow : ∀ n, pgs img.sz ≤ n → n < pgs r →
          ∃ q, leafOf T1 n = some (grownLeaf ⟨false,true,false,false⟩ q) := by
        intro n hle hlt
        exact (hg n (hnv n hlt)).1 (by omega)
      rw [post_bind, post_setProc, withPhys_proc, post_bind, post_vm, withProc_phys,
        withPhys_phys, hguard, hstack]
      obtain ⟨qg,hqg⟩ := hgrow (pgs img.sz) (Nat.le_refl _) (by omega)
      have hclear := uvmclear_post (n := pgs img.sz) (by omega) hb1.maps (hb1.holds hh) hqg
      rw [hs1.root] at hclear
      apply post_imp (post_safe hclear)
      rintro _ ph2 ⟨T2,hb2,hleaf2⟩
      have hs2 : Space ph2.mem img.pagetable r T2 := by
        refine ⟨hb2.root.trans hs1.root, hb2.maps, ?_, ?_, hs1.size⟩
        · intro n a hn ha
          rw [hleaf2 n hn] at ha
          split_ifs at ha with hng
          · rw [← Option.some.inj ha]
            have hlt : n < TFVPN := by omega
            exact ⟨Or.inl (by omega), ⟨fun _ => hlt, fun _ => rfl⟩, fun _ => hlt⟩
          · exact hs1.leaves n a hn ha
        · rw [hleaf2 TFVPN (by decide), if_neg (by omega)]
          exact hs1.top
      have hinv2 := h.setImage ⟨img.pagetable,r⟩ (Or.inl rfl) hp hT (hb1.trans hb2) hs2
      rw [post_bind, post_vm]
      simp only [withProc_withPhys, withPhys_withPhys, withProc_phys, withPhys_phys]
      have hpush := pushArgs_post own (k.proc p).sz ((pgs img.sz+1)*PGSIZE) r
        ((k.proc p).argv.map Arg.len) 0 r hb2.maps
        (Nat.mul_pos (Nat.succ_pos _) (by decide)) hs2.size (Nat.le_refl r) (by
          intro n hle hlt
          rw [Nat.mul_div_cancel _ (by decide)] at hle
          have hn : n < pgs r := by
            have := div_lt_pgs hlt
            rwa [Nat.mul_div_cancel _ (by decide)] at this
          obtain ⟨qs,hqs⟩ := hgrow n (by omega) hn
          refine ⟨grownLeaf ⟨false,true,false,false⟩ qs, ?_, rfl, rfl⟩
          rw [hleaf2 n (hnv n hn), if_neg (by omega)]
          exact hqs)
      rw [hs2.root] at hpush
      apply post_imp (post_safe hpush)
      rintro ok _ rfl
      cases ok with
      | false =>
        refine kexecBad_errors hinv2 ?_
        rw [withProc_self]
        exact hp
      | true =>
        have hown2 : (update tr p ⟨(tr p).table, some T2⟩ p).table = some S := by
          rw [update_self]
          exact hS
        obtain ⟨S',hS',hsS',hhS'⟩ := hinv2.opened.pages.table (p := p) (q := own) (by
          rw [withProc_self]
          exact hown)
        obtain rfl : S = S' := Option.some.inj (hown2.symm.trans hS')
        rw [withProc_self] at hsS'
        rw [if_pos rfl, post_bind, post_setProc, post_bind, post_vm]
        apply post_imp (post_safe (procFreepagetable_post hsS' hhS'))
        intro _ ph3 hmove
        have hinv3 := hinv2.commit ⟨img.pagetable,r⟩ (by rw [withProc_self]; exact hp)
          hown2 (by rw [update_self]) hs2 hmove
        simp only [withProc_withPhys, withPhys_withPhys, withProc_self, withProc_withProc]
          at hinv3 ⊢
        apply post_safe (freeArgs_post hinv3 (by rw [withProc_self]; exact hp))

theorem fetchaddr_post (h : Pages k tr) {q : ℕ} (hq : (k.proc p).pagetable = some q) (addr : ℕ) :
    post (fetchaddr p addr) k (fun _ k' => Touched k tr k') never := by
  unfold fetchaddr
  rw [post_bind, post_get]
  split_ifs
  · exact Touched.refl h
  · exact copyinProc_post h hq addr 8

theorem KernelInv.newArg {m : ℕ} (h : KernelInv k tr none) (hp : (k.proc p).Live)
    (hk : Kalloced k.phys ph' m) (len : ℕ) :
    KernelInv ((k.withPhys ph').withProc p { k.proc p with
        argv := (k.proc p).argv ++ [⟨some m, len⟩] }) (update tr p (tr p)) none := by
  have hmove := kalloc_moves hk.endPage hk.mem hk.free
  have hspaces := h.opened.pages.spaces p
  have hholds : ∀ t : Option (PageTree 2), (∀ a, t.elim 0 (fun T => pages 2 T a) ≤
      (tr p).table.elim 0 (fun T => pages 2 T a)+(tr p).image.elim 0 (fun T => pages 2 T a)) →
      Holds k.phys (fun a => 0+t.elim 0 (fun T => pages 2 T a)) := by
    intro t ht
    apply (h.opened.pages.holds p).mono
    intro a
    have := ht a
    rw [procHeld]
    omega
  have hpages : Pages ((k.withPhys ph').withProc p { k.proc p with
      argv := (k.proc p).argv ++ [⟨some m, len⟩] }) (update tr p (tr p)) := by
    apply h.opened.pages.change p
    · apply (hmove.frame (procHeld (k.proc p) (tr p))).congr
      · intro a
        exact Nat.zero_add _
      · intro a
        have hcount : (argPages { k.proc p with argv := (k.proc p).argv ++ [⟨some m, len⟩] }).count a =
            (argPages (k.proc p)).count a+single m a := by
          simp [argPages, single, List.count_cons]
        rw [procHeld, procHeld, hcount]
        dsimp only
        omega
    · exact ⟨rel_frame hspaces.table hmove (hholds _ (fun a => by omega)),
        rel_frame hspaces.image hmove (hholds _ (fun a => by omega))⟩
  exact h.atProc (Or.inl rfl) hpages rfl
    (hp.sane_of (h.sane p) rfl rfl (hp.sane_iff.mp (h.sane p)).2) none
    (h.full p)

theorem Touched.proc {k' : Kernel} (h : Touched k tr k') : k'.proc = k.proc := by
  obtain ⟨ph',tr',rfl,_⟩ := h
  rfl

section
variable (h : KernelInv k tr none) (hp : (k.proc p).Live)
include h hp

theorem sysExecArg_post (uargv : ℕ) (str : Option (Fin PGSIZE)) :
    post (sysExecArg p uargv str) k (fun _ => Kernel.Ready) never := by
  obtain ⟨q,hq⟩ := h.pagetable hp
  unfold sysExecArg
  rw [post_bind, post_get]
  by_cases hmax : (k.proc p).argv.length ≥ MAXARG
  · rw [if_pos hmax]
    exact freeArgs_post h hp
  rw [if_neg hmax]
  apply post_bind_of (fetchaddr_post h.opened.pages hq _)
  intro ok k1 ht
  obtain ⟨tr1,h1⟩ := h.touched ht
  have hp1 : (k1.proc p).Live := by
    rw [ht.proc]
    exact hp
  cases ok with
  | false => exact freeArgs_post h1 hp1
  | true =>
    rw [if_pos rfl, post_bind, post_vm]
    apply post_imp (kalloc_post k1.phys)
    rintro m ph2 ⟨hend,hk⟩
    cases m with
    | none =>
      have hpages := h1.opened.pages.changeFiles k1.pipe (Moves.same hend hk _)
      exact freeArgs_post ⟨⟨hpages,h1.opened.files,h1.opened.counted⟩, h1.sane, h1.full⟩ hp1
    | some m =>
      have h2 := h1.newArg hp1 ⟨hend,hk.1,hk.2⟩ ((str.map Fin.val).getD 0)
      split_ifs
      · exact ⟨_,h2⟩
      · apply freeArgs_post h2
        rw [withProc_self]
        exact hp1

theorem sysExecLast_post (himg : (k.proc p).image = none) (uargv : ℕ) (found : Bool) :
    post (sysExecLast p uargv found) k (fun _ => Kernel.Ready) (fun e _ => e = .panic "exec") := by
  obtain ⟨q,hq⟩ := h.pagetable hp
  unfold sysExecLast
  rw [post_bind, post_get]
  split_ifs
  · exact post_safe (freeArgs_post h hp)
  apply post_bind_of (post_safe (fetchaddr_post h.opened.pages hq _))
  intro ok k1 ht
  obtain ⟨tr1,h1⟩ := h.touched ht
  have hp1 : (k1.proc p).Live := by
    rw [ht.proc]
    exact hp
  cases ok with
  | false => exact post_safe (freeArgs_post h1 hp1)
  | true => exact kexecBegin_post h1 hp1 (by rw [ht.proc]; exact himg) found

theorem forkretExec_post (hout : (k.proc p).argv = [] ∧ (k.proc p).image = none) (found : Bool) :
    post (forkretExec p found) k (fun _ => Kernel.Ready) (fun e _ => e = .panic "exec") := by
  obtain ⟨pr,hpr⟩ : ∃ pr : Proc, pr = { k.proc p with
      argv := [⟨none, "/init".length⟩] } := ⟨_,rfl⟩
  have hpages : Pages ((k.withPhys k.phys).withProc p pr) (update tr p (tr p)) := by
    apply h.opened.pages.change p
    · apply (Moves.refl k.phys (procHeld (k.proc p) (tr p))).congr (fun _ => rfl)
      intro a
      simp [hpr, procHeld, argPages, hout.1]
    · obtain ⟨htable,himage⟩ := h.opened.pages.spaces p
      rw [hpr]
      exact ⟨htable,himage⟩
  have h1 := h.atProc (Or.inl rfl) hpages (by rw [hpr])
    (hp.sane_of (h.sane p) (by rw [hpr]) (by rw [hpr])
      (by rw [hpr]; exact (hp.sane_iff.mp (h.sane p)).2)) none (by
      intro hne img T hi hT
      rw [hpr] at hi
      exact h.full p hne img T hi hT)
  unfold forkretExec
  rw [post_bind, post_setProc, ← hpr]
  refine kexecBegin_post h1 ?_ ?_ found
  · rw [withProc_self, hpr]
    exact hp
  · rw [withProc_self, hpr]
    exact hout.2

end

end Calls
end Xv6
