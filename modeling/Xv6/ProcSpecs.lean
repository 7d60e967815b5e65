import Xv6.KernelPages

/-! What the functions of kernel/proc.c do to the pages. -/
namespace Xv6
open StateOutcome RadixTree Function

variable {T T' : PageTree 2} {ph ph' : Phys} {q sz : ℕ} {t : Option (PageTree 2)} {mem : ℕ → Page}
  {p : Fin NPROC}

theorem Space.frame {X X' : ℕ → ℕ} (h : Space ph.mem q sz T) (hmove : Moves ph ph' X X')
    (hh : Holds ph (fun a => X a+pages 2 T a)) : Space ph'.mem q sz T := by
  apply h.congr
  intro a ha
  apply hmove.outside
  have := hh.once a
  omega

theorem kfree_elim (o : Option ℕ) (hh : Holds ph (fun a => o.elim 0 (fun q => single q a))) :
    post (o.elim (pure ()) kfree) ph (fun _ ph' =>
      Moves ph ph' (fun a => o.elim 0 (fun q => single q a)) (fun _ => 0)) never := by
  cases o with
  | none => exact Moves.refl ph _
  | some q => exact post_imp (kfree_post hh) (fun _ _ h => h.1)

theorem procFreepagetable_elim {α : Type} {o : Option α} {r s : α → ℕ}
    (hs : Option.Rel (fun x T => Space ph.mem (r x) (s x) T) o t)
    (hh : Holds ph (fun a => t.elim 0 (fun T => pages 2 T a))) :
    post (o.elim (pure ()) fun x => procFreepagetable (r x) (s x)) ph (fun _ ph' =>
      Moves ph ph' (fun a => t.elim 0 (fun T => pages 2 T a)) (fun _ => 0)) never := by
  cases hs with
  | none => exact Moves.refl ph _
  | some hs => exact procFreepagetable_post hs hh

theorem rel_frame {α : Type} {o : Option α} {r s : α → ℕ} {X X' : ℕ → ℕ}
    (hs : Option.Rel (fun x T => Space ph.mem (r x) (s x) T) o t) (hmove : Moves ph ph' X X')
    (hh : Holds ph (fun a => X a+t.elim 0 (fun T => pages 2 T a))) :
    Option.Rel (fun x T => Space ph'.mem (r x) (s x) T) o t := by
  apply rel_imp hs
  rintro x T rfl hT
  exact hT.frame hmove hh

theorem rel_none_left {α β : Type} {r : α → β → Prop} {y : Option β}
    (h : Option.Rel r none y) : y = none := by
  cases h
  rfl

theorem rel_some_left {α β : Type} {r : α → β → Prop} {x : α} {y : Option β}
    (h : Option.Rel r (some x) y) : ∃ b, y = some b ∧ r x b := by
  cases h with
  | some hab => exact ⟨_,rfl,hab⟩

def Proc.freed (pr : Proc) : Proc :=
  { pr with
    trapframe := none
    pagetable := none
    sz := 0
    parent := none
    state := .UNUSED }

section Functions
variable {k : Kernel} {tr : Fin NPROC → Trees}

theorem freeproc_moves (h : Pages k tr) (p : Fin NPROC) (himg : (k.proc p).image = none)
    (hargv : (k.proc p).argv = []) :
    post (freeproc p) k (fun _ k' => ∃ ph', k' = (k.withPhys ph').withProc p (k.proc p).freed ∧
      Moves k.phys ph' (procHeld (k.proc p) (tr p)) (fun _ => 0)) never := by
  have himage := rel_none_left (himg ▸ (h.spaces p).image)
  have hheld : ∀ a, procHeld (k.proc p) (tr p) a =
      (k.proc p).trapframe.elim 0 (fun q => single q a)+
        (tr p).table.elim 0 (fun T => pages 2 T a) := by
    intro a
    simp [procHeld, himage, argPages, hargv]
  have hh := h.holds p
  unfold freeproc
  rw [post_bind, post_get, post_bind, post_vm]
  apply post_imp (kfree_elim (k.proc p).trapframe (hh.mono (fun a => by rw [hheld]; omega)))
  intro _ ph1 hmove1
  have hmove1' := hmove1.frame (fun a => (tr p).table.elim 0 (fun T => pages 2 T a))
  have hh1 := hmove1'.holds (hh.mono (fun a => by rw [hheld]))
  rw [post_bind, post_setProc, post_bind, post_vm]
  apply post_imp (procFreepagetable_elim (s := fun _ => (k.proc p).sz)
    (rel_frame (h.spaces p).table hmove1 (hh.mono (fun a => by rw [hheld])))
    (hh1.mono (fun a => by omega)))
  intro _ ph2 hmove2
  rw [post_setProc]
  simp only [withProc_withPhys, withPhys_withPhys, withProc_self, withProc_withProc]
  refine ⟨ph2, rfl, ?_⟩
  apply (hmove1'.trans (hmove2.congr (fun a => (Nat.zero_add _).symm) (fun _ => rfl))).congr
  · intro a
    exact (hheld a).symm
  · intro a
    rfl

theorem freeproc_post (h : Pages k tr) (p : Fin NPROC) (himg : (k.proc p).image = none)
    (hargv : (k.proc p).argv = []) :
    post (freeproc p) k (fun _ k' => ∃ ph', k' = (k.withPhys ph').withProc p (k.proc p).freed ∧
      Pages k' (update tr p ⟨none,none⟩)) never := by
  apply post_imp (freeproc_moves h p himg hargv)
  rintro _ k' ⟨ph',rfl,hmove⟩
  refine ⟨ph', rfl, h.change p ?_ ⟨Option.Rel.none, himg ▸ Option.Rel.none⟩⟩
  apply hmove.congr (fun _ => rfl)
  intro a
  simp [procHeld, argPages, Proc.freed, hargv]

theorem find_unused (hp : procIndices.find? (fun p => (k.proc p).state = .UNUSED) = some p) :
    (k.proc p).state = .UNUSED := by
  have := List.find?_some hp
  simpa using this

structure Proc.Empty (pr : Proc) : Prop where
  trapframe : pr.trapframe = none
  pagetable : pr.pagetable = none
  sz : pr.sz = 0
  ofile : pr.ofile = fun _ => none
  argv : pr.argv = []
  image : pr.image = none

theorem Pages.empty_trees (h : Pages k tr) (he : (k.proc p).Empty) :
    tr p = ⟨none,none⟩ := by
  have htable := rel_none_left (he.pagetable ▸ (h.spaces p).table)
  have himage := rel_none_left (he.image ▸ (h.spaces p).image)
  calc
    tr p = ⟨(tr p).table, (tr p).image⟩ := rfl
    _ = ⟨none,none⟩ := by rw [htable, himage]

theorem Pages.empty_held (h : Pages k tr) (he : (k.proc p).Empty) (a : ℕ) :
    procHeld (k.proc p) (tr p) a = 0 := by
  simp [procHeld, h.empty_trees he, he.trapframe, argPages, he.argv]

def Allocated (k : Kernel) (tr : Fin NPROC → Trees) (r : Option (Fin NPROC)) (k' : Kernel) :
    Prop :=
  match r with
  | none => ∃ ph', (k' = k.withPhys ph' ∨ ∃ p, (k.proc p).state = .UNUSED ∧
      k' = (k.withPhys ph').withProc p (k.proc p).freed) ∧ Pages k' tr
  | some p => (k.proc p).state = .UNUSED ∧ ∃ ph' tf q T,
      k' = (k.withPhys ph').withProc p { k.proc p with
        state := .USED
        trapframe := some tf
        pagetable := some q } ∧ Pages k' (update tr p ⟨some T,none⟩)

/-- `allocproc` returns a slot with trapframe and page table; when it fails, nothing is held
that was not held before. -/
theorem allocproc_post (h : Pages k tr)
    (hempty : ∀ p, (k.proc p).state = .UNUSED → (k.proc p).Empty) :
    post allocproc k (Allocated k tr) never := by
  unfold allocproc
  rw [post_bind, post_get]
  cases hp : procIndices.find? (fun p => (k.proc p).state = .UNUSED) with
  | none => exact ⟨k.phys, Or.inl rfl, h⟩
  | some p =>
    have hun := find_unused hp
    have he := hempty p hun
    -- whatever goes wrong, the slot is freed again
    have hfail : ∀ (ph1 : Phys) (pr : Proc) (t : Trees), pr.freed = (k.proc p).freed →
        pr.image = none → pr.argv = [] →
        Pages ((k.withPhys ph1).withProc p pr) (update tr p t) →
        post (do
            freeproc p
            return none) ((k.withPhys ph1).withProc p pr) (Allocated k tr) never := by
      intro ph1 pr t hfreed himg hargv hpages
      apply post_bind_of (freeproc_post hpages p (by rwa [withProc_self]) (by rwa [withProc_self]))
      rintro _ k2 ⟨ph2,rfl,hpages2⟩
      simp only [withProc_withPhys, withPhys_withPhys, withProc_self, withProc_withProc, hfreed,
        update_idem] at hpages2 ⊢
      rw [← h.empty_trees he, update_eq_self] at hpages2
      exact ⟨ph2, Or.inr ⟨p, hun, rfl⟩, hpages2⟩
    rw [post_bind, post_setProc, post_bind, post_vm]
    apply post_imp (kalloc_post k.phys)
    rintro tf ph1 ⟨hend1,hk1⟩
    rw [post_bind, post_setProc]
    simp only [withProc_withPhys, withProc_self, withProc_withProc]
    cases tf with
    | none =>
      refine hfail ph1 _ (tr p) rfl he.image he.argv (h.change p ?_ ?_)
      · apply (Moves.same hend1 hk1 (procHeld (k.proc p) (tr p))).congr (fun _ => rfl)
        intro a
        rw [procHeld, he.trapframe]
        rfl
      · rw [hk1.1]
        exact ⟨(h.spaces p).table, (h.spaces p).image⟩
    | some tf =>
      have hmove1 := kalloc_moves hend1 hk1.1 hk1.2
      have hh : Holds k.phys (fun _ => 0) := (h.holds p).mono (fun _ => Nat.zero_le _)
      rw [post_bind, post_vm, withProc_phys]
      apply post_imp (procPagetable_post tf ((hmove1.holds hh).mono (fun _ => Nat.zero_le _)))
      intro q ph2 h2
      rw [post_bind, post_setProc]
      simp only [withProc_withPhys, withPhys_withPhys, withProc_self, withProc_withProc]
      cases q with
      | none =>
        have hmove := hmove1.trans ((h2.frame (single tf)).congr (fun a => Nat.zero_add _)
            (fun a => Nat.zero_add _))
        refine hfail ph2 _ ⟨none,none⟩ rfl he.image he.argv (h.change p ?_ ?_)
        · apply hmove.congr
          · intro a
            exact (h.empty_held he a).symm
          · intro a
            simp [procHeld, argPages, he.argv]
        · exact ⟨Option.Rel.none, he.image ▸ Option.Rel.none⟩
      | some q =>
        obtain ⟨T,hs,hmoveT⟩ := h2
        have hmove := hmove1.trans ((hmoveT.frame (single tf)).congr (fun a => Nat.zero_add _) (fun _ => rfl))
        refine ⟨hun, ph2, tf, q, T, rfl, h.change p ?_ ?_⟩
        · apply hmove.congr
          · intro a
            exact (h.empty_held he a).symm
          · intro a
            simp [procHeld, argPages, he.argv]
            omega
        · exact ⟨Option.Rel.some (by rw [he.sz]; exact hs), he.image ▸ Option.Rel.none⟩

theorem Pages.table (h : Pages k tr) (hq : (k.proc p).pagetable = some q) :
    ∃ T, (tr p).table = some T ∧ Space k.phys.mem q (k.proc p).sz T ∧
      Holds k.phys (pages 2 T) := by
  obtain ⟨T,hT,hs⟩ := rel_some_left (hq ▸ (h.spaces p).table)
  refine ⟨T, hT, hs, (h.holds p).mono ?_⟩
  intro a
  rw [procHeld, hT, Option.elim_some]
  omega

theorem Pages.holds_image (h : Pages k tr) (hT : (tr p).table = some T) :
    Holds k.phys (fun a => pages 2 T a+(tr p).image.elim 0 (fun S => pages 2 S a)) := by
  apply (h.holds p).mono
  intro a
  rw [procHeld, hT, Option.elim_some]
  omega

theorem Pages.setTable (h : Pages k tr)
    (pr : Proc) (hT : (tr p).table = some T) (hb : Became k.phys ph' T T')
    (hpr : pr.trapframe = (k.proc p).trapframe ∧ pr.argv = (k.proc p).argv ∧
      pr.image = (k.proc p).image ∧ pr.pagetable = some q)
    (hs : Space ph'.mem q pr.sz T') : Pages ((k.withPhys ph').withProc p pr)
      (update tr p ⟨some T', (tr p).image⟩) := by
  obtain ⟨htf,hargv,himg,hq⟩ := hpr
  apply h.change p
  · apply (hb.moves.frame (fun a => (k.proc p).trapframe.elim 0 (fun q => single q a)+
      (tr p).image.elim 0 (fun T => pages 2 T a)+(argPages (k.proc p)).count a)).congr
    · intro a
      rw [procHeld, hT, Option.elim_some]
      omega
    · intro a
      rw [procHeld, htf, Option.elim_some, argPages, argPages, hargv]
      dsimp only
      omega
  · refine ⟨by rw [hq]; exact Option.Rel.some hs, ?_⟩
    rw [himg]
    exact rel_frame (h.spaces p).image hb.moves (h.holds_image hT)

theorem Space.filled (h : Space ph.mem q sz T)
    (hb : Became ph ph' T T') (hf : Filled (pgs sz) T T') : Space ph'.mem q sz T' := by
  have hlim := pgs_le h.size
  refine ⟨hb.root.trans h.root, hb.maps, ?_, ?_, h.size⟩
  · intro n a hn ha
    rcases hf n hn with hold | ⟨_,hlt,b,hb,hown⟩
    · exact h.leaves n a hn (hold ▸ ha)
    · obtain rfl : b = a := Option.some.inj (hb.symm.trans ha)
      exact ⟨Or.inl hlt, ⟨fun _ => by omega, fun _ => hown⟩, fun _ => by omega⟩
  · rcases hf TFVPN (by decide) with hold | ⟨_,_,b,hb,_⟩
    · rw [hold]
      exact h.top
    · rw [hb]
      simp

theorem Space.grown {sz' : ℕ} {xperm : Perm}
    (h : Space ph.mem q sz T) (hb : Became ph ph' T T') (hle : sz ≤ sz') (hsz' : sz' ≤ TRAPFRAME)
    (hg : Grown xperm (pgs sz) (pgs sz'-pgs sz) T T') : Space ph'.mem q sz' T' := by
  have hlim := pgs_le hsz'
  have hmono := pgs_mono hle
  refine ⟨hb.root.trans h.root, hb.maps, ?_, ?_, hsz'⟩
  · intro n a hn ha
    by_cases hin : pgs sz ≤ n ∧ n < pgs sz+(pgs sz'-pgs sz)
    · obtain ⟨m,hm⟩ := (hg n hn).1 hin
      obtain rfl := Option.some.inj (hm.symm.trans ha)
      exact ⟨Or.inl (by omega), ⟨fun _ => by omega, fun _ => rfl⟩, fun _ => by omega⟩
    · obtain ⟨hvpn,hown⟩ := h.leaves n a hn ((hg n hn).2 hin ▸ ha)
      refine ⟨?_, hown⟩
      rcases hvpn with hlt | htop
      · exact Or.inl (by omega)
      · exact Or.inr htop
  · rw [(hg TFVPN (by decide)).2 (by omega)]
    exact h.top

theorem Space.shrunk {newsz : ℕ}
    (h : Space ph.mem q sz T) (hb : Became ph ph' T T') (hleaf : ∀ m, m < NVPN →
      leafOf T' m = if pgs newsz ≤ m ∧ m < pgs sz then none else leafOf T m) :
    Space ph'.mem q (min sz newsz) T' := by
  have hlim := pgs_le h.size
  have hsize := h.size
  refine ⟨hb.root.trans h.root, hb.maps, ?_, ?_, by omega⟩
  · intro n a hn ha
    rw [hleaf n hn] at ha
    split_ifs at ha with hin
    obtain ⟨hvpn,hown⟩ := h.leaves n a hn ha
    refine ⟨?_, hown⟩
    rcases hvpn with hlt | htop
    · left
      rcases Nat.le_total sz newsz with hle | hle
      · rw [Nat.min_eq_left hle]
        exact hlt
      · rw [Nat.min_eq_right hle]
        omega
    · exact Or.inr htop
  · rw [hleaf TFVPN (by decide), if_neg (by omega)]
    exact h.top

theorem Space.above (h : Space mem q sz T) (m : ℕ)
    (hle : pgs sz ≤ m) (hlt : m < TFVPN) : leafOf T m = none := by
  by_contra hne
  obtain ⟨a,ha⟩ := Option.ne_none_iff_exists'.mp hne
  rcases (h.leaves m a (hlt.trans (by decide)) ha).1 with h | h | h <;> omega

theorem Space.own (h : Space mem q sz T) {m : ℕ}
    {a : Leaf} (hlt : m < TFVPN) (ha : leafOf T m = some a) : a.own = true :=
  (h.leaves m a (hlt.trans (by decide)) ha).2.1.mpr hlt

theorem Space.widen {sz' : ℕ} (h : Space mem q sz T)
    (hle : sz ≤ sz') (hsz' : sz' ≤ TRAPFRAME) : Space mem q sz' T := by
  refine ⟨h.root, h.maps, ?_, h.top, hsz'⟩
  intro n a hn ha
  obtain ⟨hvpn,hown⟩ := h.leaves n a hn ha
  refine ⟨?_, hown⟩
  rcases hvpn with hlt | htop
  · exact Or.inl (hlt.trans_le (pgs_mono hle))
  · exact Or.inr htop

theorem Space.uvmalloc (xperm : Perm) (newsz : ℕ)
    (h : Space ph.mem q sz T) (hh : Holds ph (pages 2 T)) :
    post (Xv6.uvmalloc q sz newsz xperm) ph (fun r ph' => ∃ T', Became ph ph' T T' ∧
      Space ph'.mem q (if r = 0 then sz else r) T' ∧
      (r ≠ 0 → r = max sz newsz ∧ Grown xperm (pgs sz) (pgs r-pgs sz) T T'))
      (fun e _ => (TRAPFRAME < newsz ∧ TFVPN < pgs sz+ph.free.length) ∧
        e = .panic "mappages: remap") := by
  have hrun := uvmalloc_post xperm newsz h.size h.maps hh h.top h.above
  rw [h.root] at hrun
  apply post_imp hrun
  rintro r ph' ⟨T',hb,hcase⟩
  refine ⟨T', hb, ?_⟩
  rcases hcase with ⟨rfl,hleaf⟩ | ⟨hr,hle,_,hg⟩
  · exact ⟨h.filled hb (fun m hm => Or.inl (hleaf m hm)), absurd rfl⟩
  · have hs := h.grown hb (by omega) hle hg
    refine ⟨?_, fun _ => ⟨hr,hg⟩⟩
    split_ifs with hzero
    · rwa [show sz = r by omega]
    · exact hs

def Resized (k : Kernel) (tr : Fin NPROC → Trees) (p : Fin NPROC) (sz : ℕ) (k' : Kernel) : Prop :=
  ∃ ph' tr', k' = (k.withPhys ph').withProc p { k.proc p with sz := sz } ∧ Pages k' tr' ∧
    ∀ p, (tr' p).image = (tr p).image

def Touched (k : Kernel) (tr : Fin NPROC → Trees) (k' : Kernel) : Prop :=
  ∃ ph' tr', k' = k.withPhys ph' ∧ Pages k' tr' ∧ ∀ p, (tr' p).image = (tr p).image

theorem Touched.refl (h : Pages k tr) : Touched k tr k := ⟨k.phys, tr, rfl, h, fun _ => rfl⟩

theorem update_image (tr : Fin NPROC → Trees) (p : Fin NPROC) (t : Option (PageTree 2))
    (p' : Fin NPROC) : (update tr p ⟨t, (tr p).image⟩ p').image = (tr p').image := by
  by_cases hp : p' = p
  · rw [hp, update_self]
  · rw [update_of_ne hp]

theorem pagetableOf_post (hq : (k.proc p).pagetable = some q) :
    post (pagetableOf p) k (fun r k' => k' = k ∧ r = q) never := by
  unfold pagetableOf
  rw [post_bind, post_get, hq]
  exact ⟨rfl,rfl⟩

section
variable (h : Pages k tr) {p : Fin NPROC} {q : ℕ} (hq : (k.proc p).pagetable = some q)
include h hq

/-- A function of the virtual memory that at most fills pages of the process. -/
theorem touched_of_filled {α : Type} {f : ℕ → ℕ → Vm α}
    (hf : ∀ T : PageTree 2, (k.proc p).sz ≤ TRAPFRAME → Maps k.phys.mem 2 T →
      Holds k.phys (pages 2 T) → rootPage 2 T = q →
      post (f q (k.proc p).sz) k.phys (fun _ ph' => ∃ T', Became k.phys ph' T T' ∧
        Filled (pgs (k.proc p).sz) T T') never) :
    post (do
        let pagetable ← pagetableOf p
        let k ← get
        vm (f pagetable (k.proc p).sz)) k (fun _ k' => Touched k tr k') never := by
  obtain ⟨T,hT,hs,hh⟩ := h.table hq
  apply post_bind_of (pagetableOf_post hq)
  rintro _ _ ⟨hk,hr⟩
  rw [hk, hr, post_bind, post_get, post_vm]
  apply post_imp (hf T hs.size hs.maps hh hs.root)
  rintro _ ph' ⟨T',hb,hfill⟩
  have hpages := h.setTable (k.proc p) hT hb ⟨rfl,rfl,rfl,hq⟩ (hs.filled hb hfill)
  rw [show (k.withPhys ph').withProc p (k.proc p) = k.withPhys ph' from
    withProc_same (k.withPhys ph') p] at hpages
  exact ⟨ph', _, rfl, hpages, update_image tr p _⟩

theorem faultProc_post (va : ℕ) :
    post (faultProc p va) k (fun _ k' => Touched k tr k') never := by
  refine touched_of_filled h hq (f := fun q sz => vmfault q sz q va) ?_
  rintro T hsz hm hh rfl
  apply post_imp (vmfault_post va hsz hm hh)
  rintro _ ph' ⟨T',hb,hf,_⟩
  exact ⟨T',hb,hf⟩

theorem copyoutProc_post (dstva len : ℕ) :
    post (copyoutProc p dstva len) k (fun _ k' => Touched k tr k') never := by
  refine touched_of_filled h hq (f := fun q sz => copyout q sz q dstva len) ?_
  rintro T hsz hm hh rfl
  exact copyoutLoop_post len dstva len hsz hm hh

theorem copyinProc_post (srcva len : ℕ) :
    post (copyinProc p srcva len) k (fun _ k' => Touched k tr k') never := by
  refine touched_of_filled h hq (f := fun q sz => copyin q sz q srcva len) ?_
  rintro T hsz hm hh rfl
  exact copyinLoop_post len srcva len hsz hm hh

theorem growproc_post (n : ℤ) : post (growproc p n) k (fun _ k' => ∃ sz, Resized k tr p sz k')
      (fun e _ => (0 < n ∧ TRAPFRAME < addInt (k.proc p).sz n) ∧
        e = .panic "mappages: remap") := by
  obtain ⟨T,hT,hs,hh⟩ := h.table hq
  have hresize : ∀ ph' T' sz, Became k.phys ph' T T' → Space ph'.mem q sz T' →
      Resized k tr p sz ((k.withPhys ph').withProc p { k.proc p with sz := sz }) := by
    intro ph' T' sz hb hs'
    exact ⟨ph', _, rfl, h.setTable _ hT hb ⟨rfl,rfl,rfl,hq⟩ hs', update_image tr p _⟩
  have hkeep : ∀ ph', (k.withPhys ph').withProc p { k.proc p with sz := (k.proc p).sz } =
      k.withPhys ph' := fun ph' => withProc_same (k.withPhys ph') p
  apply post_bind_of (post_safe (pagetableOf_post hq))
  rintro _ _ ⟨hk,hr⟩
  rw [hk, hr, post_bind, post_get]
  by_cases hpos : n > 0
  · rw [if_pos hpos, post_bind, post_vm]
    apply post_mono (hs.uvmalloc ⟨false,true,false,false⟩ (addInt (k.proc p).sz n) hh) _
      (fun _ _ he => ⟨⟨hpos, he.1.1⟩, he.2⟩)
    rintro r ph' ⟨T',hb,hs',_⟩
    split_ifs at hs' ⊢ with hzero
    · exact ⟨_, hkeep ph' ▸ hresize ph' T' _ hb hs'⟩
    · exact ⟨_, hresize ph' T' _ hb hs'⟩
  · rw [if_neg hpos]
    by_cases hneg : n < 0
    · have hrun := uvmdealloc_post (addInt (k.proc p).sz n) hs.size
        hs.maps hh (fun m a _ hlt => hs.own (hlt.trans_le (pgs_le hs.size)))
      rw [hs.root] at hrun
      rw [if_pos hneg, post_bind, post_vm]
      apply post_imp (post_safe hrun)
      rintro r ph' ⟨rfl,T',hb,hleaf⟩
      exact ⟨_, hresize ph' T' _ hb (hs.shrunk hb hleaf)⟩
    · rw [if_neg hneg]
      exact ⟨_, hkeep k.phys ▸ hresize k.phys T _ (Became.refl hs.maps) hs⟩

end

theorem addInt_le {lim : ℕ} {n : ℤ} (hn : 0 ≤ n) (h : sz+n ≤ lim) : addInt sz n ≤ lim := by
  unfold addInt
  omega

/-- The new size of a process stays below the trapframe. -/
def Fits (sz : ℕ) (n : ℤ) : Prop := 0 < n → sz+n ≤ TRAPFRAME

theorem Fits.addInt_le {n : ℤ} (h : Fits sz n) (hn : 0 ≤ n) (hsz : sz ≤ TRAPFRAME) :
    addInt sz n ≤ TRAPFRAME := by
  rcases eq_or_lt_of_le hn with rfl | hpos
  · exact Xv6.addInt_le hn (by omega)
  · exact Xv6.addInt_le hn (h hpos)

/-- `sys_sbrk` keeps the pages in order as long as the size stays below the trapframe, which
the lazy path does not look at. -/
theorem sysSbrk_post (h : Pages k tr) (hq : (k.proc p).pagetable = some q) (n t : ℤ) :
    post (sysSbrk p n t) k (fun _ k' => Fits (k.proc p).sz n ∨ (k'.proc p).sz ≤ TRAPFRAME →
        ∃ sz, Resized k tr p sz k')
      (fun e _ => (0 < n ∧ TRAPFRAME < addInt (k.proc p).sz n) ∧
        e = .panic "mappages: remap") := by
  obtain ⟨T,hT,hs,hh⟩ := h.table hq
  have hsame : Resized k tr p (k.proc p).sz k :=
    ⟨k.phys, tr, (withProc_same k p).symm, h, fun _ => rfl⟩
  unfold sysSbrk
  rw [post_bind, post_get]
  by_cases heager : t = SBRK_EAGER ∨ n < 0
  · rw [if_pos heager]
    apply post_bind_of (growproc_post h hq n)
    intro _ k' hk' _
    exact hk'
  · rw [if_neg heager]
    split_ifs with hwrap
    · exact fun _ => ⟨_,hsame⟩
    · rw [post_bind, post_setProc]
      intro hsz
      rw [withProc_self] at hsz
      have hnonneg : 0 ≤ n := by
        omega
      have hfit := hsz.elim (fun hfits => hfits.addInt_le hnonneg hs.size) id
      have hs' := hs.widen (Nat.not_lt.mp hwrap) hfit
      exact ⟨_, k.phys, _, rfl, h.setTable { k.proc p with sz := addInt (k.proc p).sz n } hT
        (Became.refl hs.maps) ⟨rfl,rfl,rfl,hq⟩ hs', update_image tr p _⟩

/-- The copy of an address space for a child, whose own is still empty. -/
theorem uvmcopy_post {q' : ℕ} {S : PageTree 2} (hS : Space ph.mem q sz S)
    (hT : Space ph.mem q' 0 T) (hh : Holds ph (fun a => pages 2 T a+pages 2 S a)) :
    post (uvmcopy q q' sz) ph (fun r ph' => ∃ T', Became ph ph' T T' ∧
      Space ph'.mem q' (if r then sz else 0) T') never := by
  have hzero : pgs 0 = 0 := by decide
  have hrun := copyLoop_post (pgs sz) (n := 0) (by have := pgs_le hS.size; omega) hS.maps hT.maps
    hh (fun m _ hlt => hT.above m (by omega) hlt) (fun m a hlt => absurd hlt (Nat.not_lt_zero m))
  rw [Nat.zero_add, hS.root, hT.root] at hrun
  apply post_imp hrun
  rintro r ph' ⟨T',hb,hcase⟩
  refine ⟨T', hb, ?_⟩
  cases r with
  | true => exact (hT.widen (Nat.zero_le sz) hS.size).filled hb hcase
  | false =>
    refine hT.filled hb fun m hm => Or.inl ?_
    rw [hcase m hm, if_neg (Nat.not_lt_zero m)]

/-- The fields that hold pages are the same. -/
structure SameHeld (pr pr' : Proc) : Prop where
  trapframe : pr'.trapframe = pr.trapframe
  pagetable : pr'.pagetable = pr.pagetable
  sz : pr'.sz = pr.sz
  argv : pr'.argv = pr.argv
  image : pr'.image = pr.image

theorem Pages.sameHeld {k' : Kernel} (h : Pages k tr)
    (hk : k'.phys = k.phys ∧ k'.file = k.file ∧ k'.boot = k.boot)
    (hp : ∀ p, SameHeld (k.proc p) (k'.proc p)) : Pages k' tr := by
  obtain ⟨hphys,hfile,hboot⟩ := hk
  have hheld : ∀ p a, procHeld (k'.proc p) (tr p) a = procHeld (k.proc p) (tr p) a := by
    intro p a
    rw [procHeld, procHeld, (hp p).trapframe, argPages, argPages, (hp p).argv]
  constructor
  · intro a
    rw [hphys, held, hfile, hboot]
    simp only [hheld]
    exact h.exact a
  · intro p
    obtain ⟨htable,himage⟩ := h.spaces p
    rw [hphys]
    exact ⟨by rw [(hp p).pagetable, (hp p).sz]; exact htable, by rw [(hp p).image]; exact himage⟩

theorem SameHeld.withProc {pr : Proc} (h : SameHeld (k.proc p) pr)
    (p' : Fin NPROC) : SameHeld (k.proc p') ((k.withProc p pr).proc p') := by
  by_cases hp : p' = p
  · rw [hp, withProc_self]
    exact h
  · rw [withProc_ne hp]
    exact ⟨rfl,rfl,rfl,rfl,rfl⟩

theorem Pages.cosmetic (h : Pages k tr) (pr : Proc)
    (hpr : SameHeld (k.proc p) pr) : Pages (k.withProc p pr) tr :=
  h.sameHeld ⟨rfl,rfl,rfl⟩ hpr.withProc

end Functions
end Xv6
