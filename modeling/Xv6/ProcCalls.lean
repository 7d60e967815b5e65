import Xv6.FdCalls

/-! fork, exit and wait, and the invariant of the process table between calls. -/
namespace Xv6
open StateOutcome RadixTree Function

def Proc.Sane (pr : Proc) : Prop :=
  match pr.state with
  | .UNUSED => pr.Empty
  | .USED => False
  | .ZOMBIE => pr.trapframe.isSome ∧ pr.pagetable.isSome ∧ pr.ofile = (fun _ => none) ∧
      pr.argv = [] ∧ pr.image = none
  | _ => pr.trapframe.isSome ∧ pr.pagetable.isSome

/-- Every page below `sz` is there for user code. -/
def Full (sz : ℕ) (T : PageTree 2) : Prop :=
  ∀ n, n < pgs sz → ∃ a, leafOf T n = some a ∧ a.u = true

/-- The kernel between two calls; `except` may be a process whose image is being changed. -/
structure KernelInv (k : Kernel) (tr : Fin NPROC → Trees) (except : Option (Fin NPROC)) : Prop where
  opened : Opened k tr []
  sane : ∀ p, (k.proc p).Sane
  full : ∀ p, some p ≠ except → ∀ img T, (k.proc p).image = some img →
    (tr p).image = some T → Full img.sz T

abbrev Kernel.Ready (k : Kernel) : Prop := ∃ tr, KernelInv k tr none

def Proc.Live (pr : Proc) : Prop :=
  pr.state = .RUNNABLE ∨ pr.state = .RUNNING ∨ pr.state = .SLEEPING

variable {pr : Proc} {e : List (Fin NFILE)} {k' : Kernel} {p : Fin NPROC}

theorem Proc.Live.sane_iff (h : pr.Live) : pr.Sane ↔ pr.trapframe.isSome ∧ pr.pagetable.isSome := by
  unfold Proc.Sane
  rcases h with h | h | h <;> rw [h]

section Calls
variable {k : Kernel} {tr : Fin NPROC → Trees}

theorem KernelInv.empty (h : KernelInv k tr none)
    (hp : (k.proc p).state = .UNUSED) : (k.proc p).Empty := by
  have := h.sane p
  unfold Proc.Sane at this
  rwa [hp] at this

theorem KernelInv.pagetable {e : Option (Fin NPROC)} (h : KernelInv k tr e)
    (hp : (k.proc p).Live) : ∃ q, (k.proc p).pagetable = some q :=
  Option.isSome_iff_exists.mp (hp.sane_iff.mp (h.sane p)).2

/-- After a call that only dealt with the memory and the descriptors of its caller. -/
theorem KernelInv.served (h : KernelInv k tr none)
    (hp : (k.proc p).Live) (hs : Served p k tr [] k') : k'.Ready := by
  obtain ⟨tr',ho,himg,hother,o,hself⟩ := hs
  have himage : ∀ p', (k'.proc p').image = (k.proc p').image := by
    intro p'
    by_cases hpp : p' = p
    · rw [hpp, hself]
    · rw [hother p' hpp]
  refine ⟨tr', ho, ?_, ?_⟩
  · intro p'
    by_cases hpp : p' = p
    · have hlive : (k'.proc p).Live := by
        rw [hself]
        exact hp
      rw [hpp, hlive.sane_iff, hself]
      exact hp.sane_iff.mp (h.sane p)
    · rw [hother p' hpp]
      exact h.sane p'
  · intro p' hne img T hi hT
    rw [himage] at hi
    rw [himg] at hT
    exact h.full p' hne img T hi hT

theorem Opened.cosmetic (h : Opened k tr e) (pr : Proc)
    (hpr : SameHeld (k.proc p) pr) (hofile : pr.ofile = (k.proc p).ofile) :
    Opened (k.withProc p pr) tr e := by
  refine ⟨h.pages.cosmetic pr hpr, h.files, ?_⟩
  intro i
  have hrefs := refs_withProc k p pr i
  have hi := h.counted i
  rw [hofile] at hrefs
  change (k.file i).ref = _
  omega

theorem dupFds_post {np : Fin NPROC} (fds : List (Fin NOFILE))
    (hnodup : fds.Nodup) (h : Opened k tr []) (hfree : ∀ fd ∈ fds, (k.proc np).ofile fd = none) :
    post (fds.forM (dupFd p np)) k (fun _ k' => Served np k tr [] k') never := by
  induction fds generalizing k tr with
  | nil => exact Served.refl h
  | cons fd fds ih =>
    obtain ⟨hnot,hrest⟩ := List.nodup_cons.mp hnodup
    have hone : post (dupFd p np fd) k (fun _ k' => Served np k tr [] k' ∧
        ∀ fd', fd' ≠ fd → (k'.proc np).ofile fd' = (k.proc np).ofile fd') never := by
      unfold dupFd
      rw [post_bind, post_get]
      cases hfd : (k.proc p).ofile fd with
      | none => exact ⟨Served.refl h, fun _ _ => rfl⟩
      | some i =>
        have href := h.ref_pos hfd
        apply post_bind_of (filedup_post href)
        rintro _ k1 rfl
        rw [post_setProc]
        obtain ⟨tr',ho,himg,hchange⟩ := h.incRef.takeFd (p := np)
          (hfree fd (List.mem_cons_self))
        refine ⟨⟨tr', ho, himg, hchange.congr_left rfl⟩, ?_⟩
        intro fd' hfd'
        rw [withProc_self]
        exact update_of_ne hfd' _ _
    apply post_bind_of hone
    rintro _ k1 ⟨⟨tr1,ho1,himg1,hchange1⟩,hkeep⟩
    have hrun := ih hrest ho1 (by
      intro fd' hfd'
      rw [hkeep fd' (by rintro rfl; exact hnot hfd')]
      exact hfree fd' (List.mem_cons_of_mem _ hfd'))
    apply post_imp hrun
    rintro _ k2 ⟨tr2,ho2,himg2,hchange2⟩
    exact ⟨tr2, ho2, fun p' => (himg2 p').trans (himg1 p'), hchange1.trans hchange2⟩

theorem Proc.Empty.freed (h : pr.Empty) : pr.freed.Empty :=
  ⟨rfl, rfl, rfl, h.ofile, h.argv, h.image⟩

theorem Proc.Empty.sane (h : pr.Empty) (hs : pr.state = .UNUSED) : pr.Sane := by
  unfold Proc.Sane
  rw [hs]
  exact h

theorem Counted.congr (h : Counted k e)
    (hfile : k'.file = k.file) (hofile : ∀ p, (k'.proc p).ofile = (k.proc p).ofile) :
    Counted k' e := by
  intro i
  rw [hfile, refs_congr hofile]
  exact h i

theorem KernelInv.freeSlot {ph' : Phys} {tr' : Fin NPROC → Trees}
    (h : KernelInv k tr none) (he : (k.proc p).freed.Empty)
    (hpages : Pages ((k.withPhys ph').withProc p (k.proc p).freed) tr')
    (himg : ∀ p', p' ≠ p → (tr' p').image = (tr p').image) :
    KernelInv ((k.withPhys ph').withProc p (k.proc p).freed) tr' none := by
  have hofile : ∀ p', (((k.withPhys ph').withProc p (k.proc p).freed).proc p').ofile =
      (k.proc p').ofile := by
    intro p'
    by_cases hp : p' = p
    · rw [hp, withProc_self]
      rfl
    · rw [withProc_ne hp, withPhys_proc]
  refine ⟨⟨hpages, h.opened.files, h.opened.counted.congr rfl hofile⟩, ?_, ?_⟩
  · intro p'
    by_cases hp : p' = p
    · rw [hp, withProc_self]
      exact he.sane rfl
    · rw [withProc_ne hp]
      exact h.sane p'
  · intro p' hne img T hi hT
    by_cases hp : p' = p
    · rw [hp, withProc_self, he.image] at hi
      exact absurd hi (by simp)
    · rw [withProc_ne hp] at hi
      rw [himg p' hp] at hT
      exact h.full p' hne img T hi hT

theorem kfork_post (h : KernelInv k tr none) (hp : (k.proc p).Live) :
    post (kfork p) k (fun _ => Kernel.Ready) never := by
  obtain ⟨q,hq⟩ := h.pagetable hp
  apply post_bind_of (allocproc_post h.opened.pages (fun p => h.empty))
  intro r k1 h1
  cases r with
  | none =>
    obtain ⟨ph1,hk1,hpages⟩ := h1
    refine ⟨tr, ?_⟩
    rcases hk1 with rfl | ⟨p1,hun,rfl⟩
    · exact ⟨⟨hpages,h.opened.files,h.opened.counted⟩, h.sane, h.full⟩
    · exact h.freeSlot (h.empty hun).freed hpages (fun _ _ => rfl)
  | some np =>
    obtain ⟨hun,ph1,tf,q',T,rfl,hpages1⟩ := h1
    have he := h.empty hun
    have hne : p ≠ np := by
      rintro rfl
      rcases hp with hs | hs | hs <;> rw [hs] at hun <;> simp at hun
    obtain ⟨pr1,hpr1⟩ : ∃ pr1 : Proc, pr1 = { k.proc np with
        state := .USED
        trapframe := some tf
        pagetable := some q' } := ⟨_,rfl⟩
    rw [← hpr1] at hpages1 ⊢
    obtain ⟨k1,hk1⟩ : ∃ k1, k1 = (k.withPhys ph1).withProc np pr1 := ⟨_,rfl⟩
    have hself1 : k1.proc np = pr1 := by rw [hk1, withProc_self]
    have hother1 : ∀ p', p' ≠ np → k1.proc p' = k.proc p' := by
      intro p' hp'
      rw [hk1, withProc_ne hp', withPhys_proc]
    have hfile1 : k1.file = k.file ∧ k1.pipe = k.pipe := by
      rw [hk1]
      exact ⟨rfl,rfl⟩
    have himg1 : ∀ p', p' ≠ np → (update tr np ⟨some T,none⟩ p').image = (tr p').image := by
      intro p' hp'
      rw [update_of_ne hp']
    generalize update tr np ⟨some T,none⟩ = tr1 at *
    rw [← hk1] at hpages1 ⊢
    obtain ⟨S,hSt,hS,_⟩ := hpages1.table (p := p) (by rw [hother1 p hne]; exact hq)
    obtain ⟨T1,hTt,hT,_⟩ := hpages1.table (p := np) (q := q') (by rw [hself1, hpr1])
    rw [hother1 p hne] at hS
    rw [hself1, hpr1] at hT
    rw [he.sz] at hT
    have hholds : Holds k1.phys (fun a => pages 2 T1 a+pages 2 S a) := by
      apply hpages1.holds_of_le
      intro a
      have htwo := two_procs_le_held k1 tr1 hne.symm a
      simp only [procHeld, hSt, hTt, Option.elim_some] at htwo
      omega
    apply post_bind_of (pagetableOf_post (q := q) (by rw [hother1 p hne]; exact hq))
    rintro _ _ ⟨hkk,hr⟩
    rw [hkk, hr]
    apply post_bind_of (pagetableOf_post (q := q') (by rw [hself1, hpr1]))
    rintro _ _ ⟨hkk,hr⟩
    rw [hkk, hr, post_bind, post_get, post_bind, post_vm, hother1 p hne]
    apply post_imp (uvmcopy_post hS hT hholds)
    rintro ok ph2 ⟨T2,hb2,hs2⟩
    cases ok with
    | false =>
      have hpages2 := hpages1.setTable (k1.proc np) hTt hb2
        ⟨rfl,rfl,rfl,by rw [hself1, hpr1]⟩ (by rw [hself1, hpr1]; exact he.sz ▸ hs2)
      rw [show (k1.withPhys ph2).withProc np (k1.proc np) = k1.withPhys ph2 from
        withProc_same (k1.withPhys ph2) np] at hpages2
      apply post_bind_of (freeproc_post hpages2 np
        (by rw [withPhys_proc, hself1, hpr1]; exact he.image)
        (by rw [withPhys_proc, hself1, hpr1]; exact he.argv))
      rintro _ k3 ⟨ph3,rfl,hpages3⟩
      rw [withPhys_withPhys, withPhys_proc, hself1, hk1, withProc_withPhys, withProc_withProc,
        withPhys_withPhys, show pr1.freed = (k.proc np).freed by rw [hpr1]; rfl] at hpages3 ⊢
      refine ⟨_, h.freeSlot he.freed hpages3 ?_⟩
      intro p' hp'
      rw [update_of_ne hp', update_image, himg1 p' hp']
    | true =>
      have hpages2 := hpages1.setTable { k1.proc np with sz := (k.proc p).sz } hTt hb2
        ⟨rfl,rfl,rfl,by rw [hself1, hpr1]⟩ hs2
      have himg2 := update_image tr1 np (some T2)
      generalize update tr1 np ⟨some T2, (tr1 np).image⟩ = tr2 at *
      rw [if_pos rfl, post_bind, post_setProc, withPhys_proc]
      obtain ⟨k2,hk2⟩ : ∃ k2, k2 = (k1.withPhys ph2).withProc np
        { k1.proc np with sz := (k.proc p).sz } := ⟨_,rfl⟩
      have hself2 : k2.proc np = { pr1 with sz := (k.proc p).sz } := by
        rw [hk2, withProc_self, hself1]
      have hother2 : ∀ p', p' ≠ np → k2.proc p' = k.proc p' := by
        intro p' hp'
        rw [hk2, withProc_ne hp', withPhys_proc, hother1 p' hp']
      have ho2 : Opened k2 tr2 [] := by
        refine ⟨hk2 ▸ hpages2, ?_, h.opened.counted.congr ?_ ?_⟩
        · rw [hk2]
          change Files k1.file k1.pipe
          rw [hfile1.1, hfile1.2]
          exact h.opened.files
        · rw [hk2]
          exact hfile1.1
        · intro p'
          by_cases hp' : p' = np
          · rw [hp', hself2, hpr1]
          · rw [hother2 p' hp']
      rw [← hk2]
      apply post_bind_of (dupFds_post fdIndices
        (by unfold fdIndices; exact List.nodup_finRange _) ho2
        (by
          intro fd _
          rw [hself2, hpr1]
          exact congrFun he.ofile fd))
      rintro _ k3 ⟨tr3,ho3,himg3,hother3,o,hself3⟩
      rw [post_bind, post_setProc]
      have ho4 := ho3.cosmetic { k3.proc np with parent := some p, state := .RUNNABLE }
        ⟨rfl,rfl,rfl,rfl,rfl⟩ rfl
      refine ⟨tr3, ho4, ?_, ?_⟩
      · intro p'
        by_cases hp' : p' = np
        · rw [hp', withProc_self]
          refine (Proc.Live.sane_iff (Or.inl rfl)).mpr ?_
          rw [hself3, hself2, hpr1]
          exact ⟨rfl,rfl⟩
        · rw [withProc_ne hp', hother3 p' hp', hother2 p' hp']
          exact h.sane p'
      · intro p' hne' img T' hi hT'
        by_cases hp' : p' = np
        · rw [hp', withProc_self] at hi
          rw [hself3, hself2, hpr1] at hi
          rw [he.image] at hi
          exact absurd hi (by simp)
        · rw [withProc_ne hp', hother3 p' hp', hother2 p' hp'] at hi
          rw [himg3, himg2, himg1 p' hp'] at hT'
          exact h.full p' hne' img T' hi hT'

/-- Closing a descriptor in `kexit`: the file first, then the descriptor. -/
theorem closeFd_post {fd : Fin NOFILE} (h : Opened k tr []) :
    post (closeFd p fd) k (fun _ k' => Served p k tr [] k' ∧ (k'.proc p).ofile fd = none ∧
      ∀ fd', (k.proc p).ofile fd' = none → (k'.proc p).ofile fd' = none) never := by
  unfold closeFd
  rw [post_bind, post_get]
  cases hfd : (k.proc p).ofile fd with
  | none => exact ⟨Served.refl h, hfd, fun _ hn => hn⟩
  | some i =>
    apply post_bind_of (fileclose_post h.pages h.files (h.ref_pos hfd))
    rintro _ k1 ⟨⟨ph1,file1,pipe1,rfl,hpages1,hfiles1⟩,href1⟩
    rw [clearFd, post_setProc]
    refine ⟨⟨tr, ⟨hpages1.cosmetic _ ⟨rfl,rfl,rfl,rfl,rfl⟩, hfiles1, ?_⟩, fun _ => rfl,
      fun p' => withProc_ne, _, withProc_self _ _ _⟩, ?_, ?_⟩
    · intro j
      have hset := refs_setFd ((k.withPhys ph1).withFiles file1 pipe1) p fd none j
      have hj := h.counted j
      have hc := href1 j
      change (file1 j).ref+_ = _ at hc
      change _+(if (k.proc p).ofile fd = some j then 1 else 0) = refs k.proc j+_ at hset
      simp only [hfd, Option.some.injEq, reduceCtorEq, if_false, List.count_nil] at hset hj
      change (file1 j).ref = _
      simp only [List.count_nil]
      simp only [eq_comm (a := j)] at hc
      omega
    · rw [withProc_self]
      exact update_self _ _ _
    · intro fd' hnone
      rw [withProc_self]
      by_cases hf : fd' = fd
      · rw [hf]
        exact update_self _ _ _
      · exact (update_of_ne hf _ _).trans hnone

theorem closeFds_post (fds : List (Fin NOFILE)) (h : Opened k tr []) :
    post (fds.forM (closeFd p)) k (fun _ k' => Served p k tr [] k' ∧
      (∀ fd ∈ fds, (k'.proc p).ofile fd = none) ∧
      ∀ fd, (k.proc p).ofile fd = none → (k'.proc p).ofile fd = none) never := by
  induction fds generalizing k tr with
  | nil => exact ⟨Served.refl h, by simp, fun _ hn => hn⟩
  | cons fd fds ih =>
    apply post_bind_of (closeFd_post h)
    rintro _ k1 ⟨⟨tr1,ho1,himg1,hchange1⟩,hnone,hkeep⟩
    apply post_imp (ih ho1)
    rintro _ k2 ⟨⟨tr2,ho2,himg2,hchange2⟩,hall,hkeep2⟩
    refine ⟨⟨tr2, ho2, fun p' => (himg2 p').trans (himg1 p'), hchange1.trans hchange2⟩, ?_,
      fun fd' hn => hkeep2 fd' (hkeep fd' hn)⟩
    intro fd' hmem
    rcases List.mem_cons.mp hmem with rfl | hmem
    · exact hkeep2 _ hnone
    · exact hall fd' hmem

theorem kexit_post (h : KernelInv k tr none) (hp : (k.proc p).Live)
    (hout : (k.proc p).argv = [] ∧ (k.proc p).image = none) :
    post (kexit p) k (fun _ => Kernel.Ready) (fun e _ => e = .panic "init exiting") := by
  unfold kexit
  rw [post_bind, post_get]
  by_cases hinit : k.initproc = some p
  · rw [if_pos hinit]
    exact rfl
  rw [if_neg hinit]
  apply post_bind_of (post_safe (closeFds_post fdIndices h.opened))
  rintro _ k1 ⟨⟨tr1,ho1,himg1,hother1,o,hself1⟩,hall,_⟩
  have hofile : o = fun _ => none := by
    funext fd
    have := hall fd (by unfold fdIndices; exact List.mem_finRange fd)
    rwa [hself1] at this
  rw [post_bind, reparent, post_modify, post_setProc]
  obtain ⟨k2,hk2⟩ : ∃ k2 : Kernel, k2 = { k1 with
      proc := fun pp => if (k1.proc pp).parent = some p then
          { k1.proc pp with parent := k1.initproc }
        else k1.proc pp } := ⟨_,rfl⟩
  -- only the parents of processes change
  have hsame : ∀ p', ∃ par, k2.proc p' = { k1.proc p' with parent := par } := by
    intro p'
    rw [hk2]
    dsimp only
    split_ifs
    · exact ⟨_,rfl⟩
    · exact ⟨(k1.proc p').parent,rfl⟩
  have ho2 : Opened k2 tr1 [] := by
    refine ⟨ho1.pages.sameHeld ?_ ?_, ?_, ho1.counted.congr ?_ ?_⟩
    · rw [hk2]
      exact ⟨rfl,rfl,rfl⟩
    · intro p'
      obtain ⟨par,hpar⟩ := hsame p'
      rw [hpar]
      exact ⟨rfl,rfl,rfl,rfl,rfl⟩
    · rw [hk2]
      exact ho1.files
    · rw [hk2]
    · intro p'
      obtain ⟨par,hpar⟩ := hsame p'
      rw [hpar]
  rw [← hk2]
  have ho3 := ho2.cosmetic { k2.proc p with state := .ZOMBIE } ⟨rfl,rfl,rfl,rfl,rfl⟩ rfl
  obtain ⟨par,hpar⟩ := hsame p
  refine ⟨tr1, ho3, ?_, ?_⟩
  · intro p'
    by_cases hp' : p' = p
    · have hsane := hp.sane_iff.mp (h.sane p)
      rw [hp', withProc_self, hpar, hself1]
      exact ⟨hsane.1, hsane.2, hofile, hout.1, hout.2⟩
    · obtain ⟨par',hpar'⟩ := hsame p'
      have hsane := h.sane p'
      rw [withProc_ne hp', hpar', hother1 p' hp']
      unfold Proc.Sane at hsane ⊢
      cases hstate : (k.proc p').state <;> rw [hstate] at hsane
      · exact ⟨hsane.trapframe, hsane.pagetable, hsane.sz, hsane.ofile, hsane.argv, hsane.image⟩
      all_goals exact hsane
  · intro p' hne img T hi hT
    rw [himg1] at hT
    by_cases hp' : p' = p
    · rw [hp', hpar, hself1] at hi
      rw [hout.2] at hi
      exact absurd hi (by simp)
    · obtain ⟨par',hpar'⟩ := hsame p'
      rw [withProc_ne hp', hpar', hother1 p' hp'] at hi
      exact h.full p' hne img T hi hT

theorem KernelInv.touched (h : KernelInv k tr none) (ht : Touched k tr k') :
    k'.Ready := by
  obtain ⟨ph',tr',rfl,hpages,himg⟩ := ht
  refine ⟨tr', ⟨hpages,h.opened.files,h.opened.counted⟩, h.sane, ?_⟩
  intro p' hne img T hi hT
  rw [himg] at hT
  exact h.full p' hne img T hi hT

theorem kwait_post (h : KernelInv k tr none) (hp : (k.proc p).Live) (addr : ℕ) :
    post (kwait p addr) k (fun _ => Kernel.Ready) (fun e _ => e = .asleep) := by
  obtain ⟨q,hq⟩ := h.pagetable hp
  unfold kwait
  rw [post_bind, post_get]
  cases hfind : procIndices.find? (fun pp => (k.proc pp).parent = some p ∧
      (k.proc pp).state = .ZOMBIE) with
  | none =>
    dsimp only
    split_ifs
    · exact rfl
    · exact ⟨tr,h⟩
  | some pp =>
    have hzombie : (k.proc pp).state = .ZOMBIE := by
      have := List.find?_some hfind
      simp only [decide_eq_true_eq] at this
      exact this.2
    have hcopy : post (if addr = 0 then pure true else copyoutProc p addr 4) k
        (fun _ => Touched k tr) (fun e _ => e = .asleep) := by
      split_ifs with ha
      · exact Touched.refl h.opened.pages
      · exact post_safe (copyoutProc_post h.opened.pages hq addr 4)
    apply post_bind_of hcopy
    intro ok k1 ht
    cases ok with
    | false => exact h.touched ht
    | true =>
      obtain ⟨tr1,h1⟩ := h.touched ht
      obtain ⟨ph1,_,rfl,_,_⟩ := ht
      have hsane := h.sane pp
      unfold Proc.Sane at hsane
      rw [hzombie] at hsane
      obtain ⟨_,_,hofile,hargv,himage⟩ := hsane
      apply post_bind_of (post_safe (freeproc_post h1.opened.pages pp himage hargv))
      rintro _ k2 ⟨ph2,rfl,hpages2⟩
      refine ⟨_, h1.freeSlot ⟨rfl,rfl,rfl,hofile,hargv,himage⟩ hpages2 ?_⟩
      intro p' hp'
      rw [update_of_ne hp']

end Calls
end Xv6
