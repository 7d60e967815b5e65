import Xv6.ExecCalls

/-! Runs of the kernel: starting up, and then the calls of processes and the traps in any order. A
step is a system call, or a part of one where it is cut, as `exec` is. -/
namespace Xv6
open StateOutcome RadixTree Function

/-- What a page is taken for while the kernel starts: the root of its page table, the rest of
that page table, a kernel stack, the rings of the disk driver. -/
inductive BootUse where
  | kvmmake | kvmmap | mapstacks | virtio
  deriving DecidableEq, Repr

/-- What happens without a page; `kvmmake` writes to a null pointer. -/
def BootUse.failure : BootUse → String
  | .kvmmake => "kerneltrap"
  | .kvmmap => "kvmmap"
  | .mapstacks => "kalloc"
  | .virtio => "virtio disk kalloc"

def bootAlloc (u : BootUse) : Ker Unit := do
  let q ← vm kalloc
  match q with
  | none => throw (.panic u.failure)
  | some q => modify fun k => { k with boot := q :: k.boot }

inductive Call where
  | bootAlloc (u : BootUse)
  | userinit
  | sched (p : Fin NPROC) (s : ProcState)
  | fork (p : Fin NPROC)
  | exit (p : Fin NPROC)
  | wait (p : Fin NPROC) (addr : ℕ)
  | sbrk (p : Fin NPROC) (n t : ℤ)
  | fault (p : Fin NPROC) (va : ℕ)
  | copyout (p : Fin NPROC) (dstva len : ℕ)
  | copyin (p : Fin NPROC) (srcva len : ℕ)
  | dup (p : Fin NPROC) (fd : Fin NOFILE)
  | close (p : Fin NPROC) (fd : Fin NOFILE)
  | openInode (p : Fin NPROC) (device writable : Bool)
  | pipe (p : Fin NPROC) (fdarray : ℕ)
  | forkret (p : Fin NPROC) (found : Bool)
  | execArg (p : Fin NPROC) (uargv : ℕ) (str : Option (Fin PGSIZE))
  | execLast (p : Fin NPROC) (uargv : ℕ) (found : Bool)
  | execSegment (p : Fin NPROC) (hdr : Option ProgHdr) (reads : ℕ)
  | execCommit (p : Fin NPROC)

/-- What `scheduler`, `yield`, `sleep` and `wakeup` do to a state. -/
def ProcState.mayBecome : ProcState → ProcState → Bool
  | .RUNNABLE, .RUNNING => true
  | .RUNNING, .RUNNABLE => true
  | .RUNNING, .SLEEPING => true
  | .SLEEPING, .RUNNABLE => true
  | _, _ => false

def Proc.free (pr : Proc) : Bool := pr.state = .RUNNING && pr.argv.isEmpty && pr.image.isNone

def Call.enabled (k : Kernel) : Call → Bool
  | .bootAlloc _ | .userinit => k.initproc.isNone
  | .sched p s => (k.proc p).state.mayBecome s
  | .fork p | .exit p | .wait p _ | .sbrk p _ _ | .fault p _ | .copyout p _ _ | .copyin p _ _
  | .dup p _ | .close p _ | .openInode p _ _ | .pipe p _ => (k.proc p).free
  | .forkret p _ => (k.proc p).free && k.initproc = some p
  | .execArg p _ _ | .execLast p _ _ => (k.proc p).state = .RUNNING && (k.proc p).image.isNone
  | .execSegment p _ _ | .execCommit p => (k.proc p).state = .RUNNING && (k.proc p).image.isSome

def Call.body : Call → Ker Unit
  | .bootAlloc u => Xv6.bootAlloc u
  | .userinit => Xv6.userinit
  | .sched p s => setProc p fun pr => { pr with state := s }
  | .fork p => discard (kfork p)
  | .exit p => kexit p
  | .wait p addr => discard (kwait p addr)
  | .sbrk p n t => discard (sysSbrk p n t)
  | .fault p va => discard (faultProc p va)
  | .copyout p dstva len => discard (copyoutProc p dstva len)
  | .copyin p srcva len => discard (copyinProc p srcva len)
  | .dup p fd => sysDup p fd
  | .close p fd => sysClose p fd
  | .openInode p device writable => openFile p (if device then .FD_DEVICE else .FD_INODE) writable
  | .pipe p fdarray => sysPipe p fdarray
  | .forkret p found => forkretExec p found
  | .execArg p uargv str => sysExecArg p uargv str
  | .execLast p uargv found => sysExecLast p uargv found
  | .execSegment p hdr reads => kexecSegment p hdr reads
  | .execCommit p => kexecCommit p

/-- The panics that a call can end in: the kernel does not start, the first process exits or
cannot be started, and `sys_sbrk` grows into the trapframe. -/
def Call.mayPanic (k : Kernel) : Call → String → Prop
  | .bootAlloc u, msg => msg = u.failure
  | .userinit, msg => msg = "kerneltrap"
  | .exit _, msg => msg = "init exiting"
  | .forkret _ _, msg | .execLast _ _ _, msg | .execSegment _ _ _, msg | .execCommit _, msg =>
    msg = "exec"
  | .sbrk p n _, msg =>
    (0 < n ∧ TRAPFRAME < addInt (k.proc p).sz n) ∧ msg = "mappages: remap"
  | _, _ => False

def Call.mayStop (k : Kernel) (c : Call) : Halt → Prop
  | .panic msg => c.mayPanic k msg
  | .asleep => True

/-- A call of `sys_sbrk` asks for an end of memory below the trapframe. -/
def Call.fits (k : Kernel) : Call → Prop
  | .sbrk p n _ => Fits (k.proc p).sz n
  | _ => True

def Kernel.sizesBounded (k : Kernel) : Prop := ∀ p, (k.proc p).sz ≤ TRAPFRAME

instance (k : Kernel) (c : Call) : Decidable (c.fits k) :=
  match c with
  | .sbrk p n _ => inferInstanceAs (Decidable (0 < n → ((k.proc p).sz : ℤ)+n ≤ TRAPFRAME))
  | .bootAlloc _ | .userinit | .sched _ _ | .fork _ | .exit _ | .wait _ _ | .fault _ _
  | .copyout _ _ _ | .copyin _ _ _ | .dup _ _ | .close _ _ | .openInode _ _ _ | .pipe _ _
  | .forkret _ _ | .execArg _ _ _ | .execLast _ _ _ | .execSegment _ _ _ | .execCommit _ =>
    .isTrue trivial

instance (k : Kernel) : Decidable k.sizesBounded :=
  inferInstanceAs (Decidable (∀ p, (k.proc p).sz ≤ TRAPFRAME))

structure PowerOn (k : Kernel) : Prop where
  free : k.phys.free = []
  endPage : k.phys.endPage ≤ PHYSPAGES
  proc : ∀ p, (k.proc p).state = .UNUSED ∧ (k.proc p).Empty
  file : ∀ i, (k.file i).type = .FD_NONE ∧ (k.file i).ref = 0
  boot : k.boot = []

/-- The states that the kernel gets to by steps that meet the condition `ok`. -/
inductive KernelRun (ok : Kernel → Call → Kernel → Prop) : Kernel → Prop
  | boot {k0 k : Kernel} : PowerOn k0 → vm kinit k0 = .ok () k → KernelRun ok k
  | step {k k' : Kernel} (c : Call) : KernelRun ok k → c.enabled k = true →
      c.body k = .ok () k' → ok k c k' → KernelRun ok k'

section Boot
variable {k : Kernel} {tr : Fin NPROC → Trees}

def freed : ℕ → ℕ → List ℕ
  | 0, _ => []
  | n+1, q => (q+n) :: freed n q

theorem freed_append (n q : ℕ) : freed n (q+1) ++ [q] = freed (n+1) q := by
  induction n with
  | zero => rfl
  | succ n ih =>
    rw [freed, List.cons_append, ih, show q+1+n = q+(n+1) by omega]
    rfl

theorem count_freed (n q a : ℕ) : (freed n q).count a = if q ≤ a ∧ a < q+n then 1 else 0 := by
  induction n with
  | zero =>
    rw [if_neg (by omega)]
    rfl
  | succ n ih =>
    rw [freed, List.count_cons, ih]
    simp only [beq_iff_eq]
    split_ifs <;> omega

theorem freeLoop_eq (n : ℕ) {q : ℕ} {ph : Phys} (hlow : ph.endPage ≤ q) (hhigh : q+n ≤ PHYSPAGES) :
    freeLoop n q ph = .ok () { ph with
      mem := fun a => if q ≤ a ∧ a < q+n then freedJunk else ph.mem a
      free := freed n q ++ ph.free } := by
  induction n generalizing q ph with
  | zero =>
    have hmem : (fun a => if q ≤ a ∧ a < q+0 then freedJunk else ph.mem a) = ph.mem := by
      funext a
      rw [if_neg (by omega)]
    rw [hmem]
    rfl
  | succ n ih =>
    have hfree : kfree q ph = .ok () { ph with
        mem := update ph.mem q freedJunk
        free := q :: ph.free } := by
      change (if q < ph.endPage ∨ PHYSPAGES ≤ q then throw (Halt.panic "kfree") else
        (do fillPage q freedJunk; modify fun ph => { ph with free := q :: ph.free }) : Vm Unit) ph = _
      rw [if_neg (by omega)]
      rfl
    change (kfree q >>= fun _ => freeLoop n (q+1)) ph = _
    rw [show (kfree q >>= fun _ => freeLoop n (q+1)) ph = freeLoop n (q+1) { ph with
        mem := update ph.mem q freedJunk
        free := q :: ph.free } by
      change EStateM.bind _ _ _ = _
      rw [EStateM.bind, hfree], ih (by dsimp only; omega) (by omega)]
    have hmem : (fun a => if q+1 ≤ a ∧ a < q+1+n then freedJunk
        else update ph.mem q freedJunk a) =
        fun a => if q ≤ a ∧ a < q+(n+1) then freedJunk else ph.mem a := by
      funext a
      by_cases ha : a = q
      · rw [ha, if_neg (by omega), if_pos (by omega), update_self]
      · rw [update_of_ne ha]
        exact if_congr (by omega) rfl rfl
    have hlist : freed n (q+1) ++ (q :: ph.free) = freed (n+1) q ++ ph.free := by
      rw [← freed_append, List.append_assoc, List.singleton_append]
    rw [hmem, hlist]

def Kernel.booted (k : Kernel) : Kernel := k.withPhys { k.phys with
  mem := fun a => if k.phys.endPage ≤ a ∧ a < PHYSPAGES then freedJunk else k.phys.mem a
  free := freed (PHYSPAGES-k.phys.endPage) k.phys.endPage }

theorem PowerOn.kinit_eq (h : PowerOn k) : vm kinit k = .ok () k.booted := by
  have hend := h.endPage
  have hrun := freeLoop_eq (PHYSPAGES-k.phys.endPage) (le_refl k.phys.endPage)
    (Nat.le_of_eq (Nat.add_sub_cancel' hend))
  rw [h.free, List.append_nil, Nat.add_sub_cancel' hend] at hrun
  have hkinit : kinit k.phys = freeLoop (PHYSPAGES-k.phys.endPage) k.phys.endPage k.phys := rfl
  unfold vm
  rw [hkinit, hrun]
  rfl

theorem PowerOn.inv (h : PowerOn k) : KernelInv k.booted (fun _ => ⟨none,none⟩) none := by
  have hheld : ∀ a, held k.booted (fun _ => ⟨none,none⟩) a = 0 := by
    intro a
    have hproc : ∀ p, procHeld (k.booted.proc p) ⟨none,none⟩ a = 0 := by
      intro p
      have he := (h.proc p).2
      change procHeld (k.proc p) ⟨none,none⟩ a = 0
      simp [procHeld, argPages, he.trapframe, he.argv]
    have hpipe : ¬IsPipe k.booted.file a := by
      rintro ⟨i,hi,_⟩
      change (k.file i).type = .FD_PIPE at hi
      rw [(h.file i).1] at hi
      exact absurd hi (by decide)
    rw [held, Finset.sum_eq_zero (fun p _ => hproc p), pipeHeld, if_neg hpipe]
    change 0+0+k.boot.count a = 0
    rw [h.boot]
    rfl
  refine ⟨⟨⟨?_, ?_⟩, ⟨?_, ?_, ?_⟩, ?_⟩, ?_, ?_⟩
  · intro a
    rw [hheld]
    change (freed (PHYSPAGES-k.phys.endPage) k.phys.endPage).count a+0 = _
    rw [count_freed, Nat.add_sub_cancel' h.endPage]
    rfl
  · intro p
    have he := (h.proc p).2
    constructor
    · change Option.Rel _ (k.proc p).pagetable none
      rw [he.pagetable]
      exact Option.Rel.none
    · change Option.Rel _ (k.proc p).image none
      rw [he.image]
      exact Option.Rel.none
  · exact fun i _ => (h.file i).1
  · intro i hi
    change (k.file i).type = .FD_PIPE at hi
    rw [(h.file i).1] at hi
    exact absurd hi (by decide)
  · intro i j hi
    change (k.file i).type = .FD_PIPE at hi
    rw [(h.file i).1] at hi
    exact absurd hi (by decide)
  · intro i
    change (k.file i).ref = refs k.proc i+0
    rw [(h.file i).2, refs, Finset.sum_eq_zero]
    intro p _
    rw [fdRefs, (h.proc p).2.ofile]
    simp
  · intro p
    change (k.proc p).Sane
    unfold Proc.Sane
    rw [(h.proc p).1]
    exact (h.proc p).2
  · intro p _ img T himg
    change (k.proc p).image = some img at himg
    rw [(h.proc p).2.image] at himg
    exact absurd himg (by simp)

theorem Pages.boot (h : Pages k tr) {ph' : Phys} {q : ℕ} (hend : ph'.endPage = k.phys.endPage)
    (hmem : ph'.mem = update k.phys.mem q freshJunk) (hfree : k.phys.free = q :: ph'.free) :
    Pages { k.withPhys ph' with boot := q :: k.boot } tr := by
  have hmove := kalloc_moves hend hmem hfree
  constructor
  · intro a
    have hexact := h.exact a
    have hcount := hmove.count a
    rw [held] at hexact
    change ph'.free.count a+((∑ p, procHeld (k.proc p) (tr p) a)+pipeHeld k.file a+
      (q :: k.boot).count a) = if ph'.endPage ≤ a ∧ a < PHYSPAGES then 1 else 0
    rw [hend, List.count_cons]
    rw [single] at hcount
    simp only [beq_iff_eq]
    omega
  · intro p
    apply (h.spaces p).congr
    intro a ha
    apply hmove.outside
    have hexact := h.exact a
    have hle := procHeld_le_held k tr p a
    split_ifs at hexact <;> omega

theorem bootAlloc_post (h : KernelInv k tr none) (u : BootUse) :
    post (bootAlloc u) k (fun _ => Kernel.Ready) (fun e _ => e = .panic u.failure) := by
  unfold bootAlloc
  rw [post_bind, post_vm]
  apply post_imp (post_safe (kalloc_post k.phys))
  rintro (_ | q) ph' ⟨hend,hq⟩
  · exact rfl
  · exact ⟨tr, ⟨h.opened.pages.boot hend hq.1 hq.2, h.opened.files, h.opened.counted⟩, h.sane, h.full⟩

theorem userinit_post (h : KernelInv k tr none) :
    post userinit k (fun _ => Kernel.Ready) (fun e _ => e = .panic "kerneltrap") := by
  apply post_bind_of (post_safe (allocproc_post h.opened.pages (fun p => h.empty)))
  intro r k1 h1
  cases r with
  | none => exact rfl
  | some p =>
    obtain ⟨hun,ph1,tf,q,T,rfl,hpages⟩ := h1
    rw [post_bind, post_modify, post_setProc]
    obtain ⟨pr,hpr⟩ : ∃ pr : Proc, pr = { k.proc p with
        state := .USED
        trapframe := some tf
        pagetable := some q } := ⟨_,rfl⟩
    rw [← hpr] at hpages ⊢
    have hofile : ∀ p', (((k.withPhys ph1).withProc p pr).proc p').ofile = (k.proc p').ofile := by
      intro p'
      by_cases hp' : p' = p
      · rw [hp', withProc_self, hpr]
      · rw [withProc_ne hp', withPhys_proc]
    have hopen : Opened { (k.withPhys ph1).withProc p pr with initproc := some p }
        (update tr p ⟨some T,none⟩) [] :=
      ⟨⟨hpages.exact,hpages.spaces⟩, h.opened.files, h.opened.counted.congr rfl hofile⟩
    refine ⟨_, hopen.cosmetic _ ⟨rfl,rfl,rfl,rfl,rfl⟩ rfl, ?_, ?_⟩
    · intro p'
      by_cases hp' : p' = p
      · rw [hp', withProc_self]
        refine (Proc.Live.sane_iff (Or.inl rfl)).mpr ?_
        rw [withProc_self, hpr]
        exact ⟨rfl,rfl⟩
      · rw [withProc_ne hp']
        rw [withProc_ne hp']
        exact h.sane p'
    · intro p' hne img T' himg hT'
      by_cases hp' : p' = p
      · rw [hp'] at hT'
        exact absurd hT' (by simp)
      · rw [update_of_ne hp'] at hT'
        rw [withProc_ne hp'] at himg
        rw [withProc_ne hp'] at himg
        exact h.full p' hne img T' himg hT'

end Boot

section Step
variable {k : Kernel} {tr : Fin NPROC → Trees} {p : Fin NPROC}

theorem Proc.live_of_free {pr : Proc} (h : pr.free = true) : pr.Live := by
  simp only [Proc.free, Bool.and_eq_true, decide_eq_true_eq] at h
  exact Or.inr (Or.inl h.1.1)

theorem Proc.out_of_free {pr : Proc} (h : pr.free = true) : pr.argv = [] ∧ pr.image = none := by
  simp only [Proc.free, Bool.and_eq_true, List.isEmpty_iff, Option.isNone_iff_eq_none] at h
  exact ⟨h.1.2,h.2⟩

theorem ProcState.live_of_mayBecome {s s' : ProcState} (h : s.mayBecome s' = true) :
    (s = .RUNNABLE ∨ s = .RUNNING ∨ s = .SLEEPING) ∧
      (s' = .RUNNABLE ∨ s' = .RUNNING ∨ s' = .SLEEPING) := by
  cases s <;> cases s' <;> simp_all [ProcState.mayBecome]

theorem sched_inv (h : KernelInv k tr none) {s : ProcState}
    (hs : (k.proc p).state.mayBecome s = true) :
    KernelInv (k.withProc p { k.proc p with state := s }) tr none := by
  obtain ⟨hold,hnew⟩ := ProcState.live_of_mayBecome hs
  have hlive : (k.proc p).Live := hold
  have hlive' : ({ k.proc p with state := s } : Proc).Live := hnew
  refine ⟨h.opened.cosmetic _ ⟨rfl,rfl,rfl,rfl,rfl⟩ rfl, ?_, ?_⟩
  · intro p'
    by_cases hp' : p' = p
    · rw [hp', withProc_self]
      exact hlive'.sane_iff.mpr (hlive.sane_iff.mp (h.sane p))
    · rw [withProc_ne hp']
      exact h.sane p'
  · intro p' hne img T himg
    by_cases hp' : p' = p
    · rw [hp', withProc_self] at himg
      rw [hp']
      exact h.full p (by simp) img T himg
    · rw [withProc_ne hp'] at himg
      exact h.full p' hne img T himg

theorem KernelInv.resized {sz : ℕ} {k' : Kernel} (h : KernelInv k tr none) (hp : (k.proc p).Live)
    (hr : Resized k tr p sz k') : k'.Ready := by
  obtain ⟨ph',tr',rfl,hpages,himg⟩ := hr
  have hrest : ∀ p', ∃ n, ((k.withPhys ph').withProc p { k.proc p with sz := sz }).proc p' =
      { k.proc p' with sz := n } := by
    intro p'
    by_cases hp' : p' = p
    · exact ⟨sz, by rw [hp', withProc_self]⟩
    · exact ⟨(k.proc p').sz, by rw [withProc_ne hp', withPhys_proc]⟩
  have hofile : ∀ p', (((k.withPhys ph').withProc p { k.proc p with sz := sz }).proc p').ofile =
      (k.proc p').ofile := by
    intro p'
    obtain ⟨n,hn⟩ := hrest p'
    rw [hn]
  refine ⟨tr', ⟨hpages, h.opened.files, h.opened.counted.congr rfl hofile⟩, ?_, ?_⟩
  · intro p'
    by_cases hp' : p' = p
    · rw [hp', withProc_self]
      exact (show ({ k.proc p with sz := sz } : Proc).Live from hp).sane_iff.mpr
        (hp.sane_iff.mp (h.sane p))
    · rw [withProc_ne hp']
      exact h.sane p'
  · intro p' hne img T hi hT
    obtain ⟨n,hn⟩ := hrest p'
    rw [hn] at hi
    rw [himg] at hT
    exact h.full p' hne img T hi hT

theorem KernelInv.sizes (h : KernelInv k tr none) : k.sizesBounded := by
  intro p
  cases hq : (k.proc p).pagetable with
  | some q =>
    obtain ⟨T,_,hs,_⟩ := h.opened.pages.table hq
    exact hs.size
  | none =>
    -- only a free slot has no page table, and its size is 0
    have hsane := h.sane p
    unfold Proc.Sane at hsane
    cases hstate : (k.proc p).state with
    | UNUSED =>
      rw [(h.empty hstate).sz]
      exact Nat.zero_le _
    | _ => simp [hstate, hq] at hsane

theorem post_discard {α σ ε : Type} {x : EStateM ε σ α} {s : σ} {Q : Unit → σ → Prop}
    {E : ε → σ → Prop} (h : post x s (fun _ s' => Q () s') E) : post (discard x) s Q E :=
  (post_map _ x s Q E).mpr h

/-- What is known after a call, when the sizes stay in bounds. -/
def Call.Good (c : Call) (k k' : Kernel) : Prop :=
  c.fits k ∨ k'.sizesBounded → ∃ tr', KernelInv k' tr' none

theorem Call.body_post (h : KernelInv k tr none) (c : Call) (hc : c.enabled k = true) :
    post c.body k (fun _ k' => c.Good k k') (fun e _ => c.mayStop k e) := by
  have hgood : ∀ k', k'.Ready → c.Good k k' := fun _ hk _ => hk
  have hserved : ∀ p k', (k.proc p).free = true → Served p k tr [] k' → c.Good k k' :=
    fun p k' hf hs => hgood k' (h.served (Proc.live_of_free hf) hs)
  have hrun : ∀ pr : Proc, pr.state = .RUNNING → pr.Live := fun _ hs => Or.inr (Or.inl hs)
  cases c with
  | bootAlloc u =>
    apply post_mono (bootAlloc_post h u) (fun _ => hgood)
    rintro _ _ rfl
    exact rfl
  | userinit =>
    apply post_mono (userinit_post h) (fun _ => hgood)
    rintro _ _ rfl
    exact rfl
  | sched p s => exact hgood _ ⟨tr, sched_inv h hc⟩
  | fork p =>
    apply post_discard
    exact post_imp (post_safe (kfork_post h (Proc.live_of_free hc))) (fun _ => hgood)
  | exit p =>
    apply post_mono (kexit_post h (Proc.live_of_free hc) (Proc.out_of_free hc))
      (fun _ => hgood)
    rintro _ _ rfl
    exact rfl
  | wait p addr =>
    apply post_discard
    apply post_mono (kwait_post h (Proc.live_of_free hc) addr) (fun _ => hgood)
    rintro _ _ rfl
    exact trivial
  | sbrk p n t =>
    obtain ⟨q,hq⟩ := h.pagetable (Proc.live_of_free hc)
    apply post_discard
    apply post_mono (sysSbrk_post h.opened.pages hq n t)
    · intro _ k' hk hfits
      obtain ⟨sz,hr⟩ := hk (hfits.imp id (fun hb => hb p))
      exact h.resized (Proc.live_of_free hc) hr
    · rintro _ _ ⟨hbig,rfl⟩
      exact ⟨hbig,rfl⟩
  | fault p va =>
    obtain ⟨q,hq⟩ := h.pagetable (Proc.live_of_free hc)
    apply post_discard
    exact post_imp (post_safe (faultProc_post h.opened.pages hq va)) (fun _ k' hk => hgood k' (h.touched hk))
  | copyout p dstva len =>
    obtain ⟨q,hq⟩ := h.pagetable (Proc.live_of_free hc)
    apply post_discard
    exact post_imp (post_safe (copyoutProc_post h.opened.pages hq dstva len)) (fun _ k' hk => hgood k' (h.touched hk))
  | copyin p srcva len =>
    obtain ⟨q,hq⟩ := h.pagetable (Proc.live_of_free hc)
    apply post_discard
    exact post_imp (post_safe (copyinProc_post h.opened.pages hq srcva len)) (fun _ k' hk => hgood k' (h.touched hk))
  | dup p fd =>
    exact post_imp (post_safe (sysDup_served h.opened fd)) (fun _ k' => hserved p k' hc)
  | close p fd =>
    exact post_imp (post_safe (sysClose_served h.opened fd)) (fun _ k' => hserved p k' hc)
  | openInode p device writable =>
    have htype : (if device then FdType.FD_DEVICE else .FD_INODE) ≠ .FD_PIPE := by
      cases device <;> decide
    exact post_imp (post_safe (openFile_served h.opened htype writable)) (fun _ k' => hserved p k' hc)
  | pipe p fdarray =>
    obtain ⟨q,hq⟩ := h.pagetable (Proc.live_of_free hc)
    exact post_imp (post_safe (sysPipe_served h.opened hq fdarray)) (fun _ k' => hserved p k' hc)
  | forkret p found =>
    simp only [Call.enabled, Bool.and_eq_true] at hc
    apply post_mono (forkretExec_post h (Proc.live_of_free hc.1) (Proc.out_of_free hc.1) found)
      (fun _ => hgood)
    rintro _ _ rfl
    exact rfl
  | execArg p uargv str =>
    simp only [Call.enabled, Bool.and_eq_true, decide_eq_true_eq] at hc
    exact post_imp (post_safe (sysExecArg_post h (hrun _ hc.1) uargv str)) (fun _ => hgood)
  | execLast p uargv found =>
    simp only [Call.enabled, Bool.and_eq_true, decide_eq_true_eq, Option.isNone_iff_eq_none] at hc
    apply post_mono (sysExecLast_post h (hrun _ hc.1) hc.2 uargv found) (fun _ => hgood)
    rintro _ _ rfl
    exact rfl
  | execSegment p hdr reads =>
    simp only [Call.enabled, Bool.and_eq_true, decide_eq_true_eq] at hc
    apply post_mono (kexecSegment_post h (hrun _ hc.1) hdr reads) (fun _ => hgood)
    rintro _ _ (rfl | rfl)
    · exact trivial
    · exact rfl
  | execCommit p =>
    simp only [Call.enabled, Bool.and_eq_true, decide_eq_true_eq] at hc
    apply post_mono (kexecCommit_post h (hrun _ hc.1)) (fun _ => hgood)
    rintro _ _ (rfl | rfl)
    · exact trivial
    · exact rfl

/-- A whole run keeps the invariant, when each step fits or leaves the sizes in bounds. -/
theorem KernelRun.inv {ok : Kernel → Call → Kernel → Prop}
    (hok : ∀ k c k', ok k c k' → c.fits k ∨ k'.sizesBounded) (hrun : KernelRun ok k) :
    ∃ tr, KernelInv k tr none := by
  induction hrun with
  | boot hpower hinit =>
    rw [hpower.kinit_eq] at hinit
    injection hinit with _ hk
    exact ⟨_, hk ▸ hpower.inv⟩
  | step c _ hc hbody hstep ih =>
    obtain ⟨tr,h⟩ := ih
    have hgood := post_ok (Call.body_post h c hc) hbody
    exact hgood (hok _ _ _ hstep)

end Step

section Examples
variable (ok : Kernel → Call → Kernel → Prop) [∀ k c k', Decidable (ok k c k')]

/-- The state after some calls, if they are possible and return. -/
def Kernel.runs : List Call → Kernel → Option Kernel
  | [], k => some k
  | c :: cs, k => if c.enabled k then
      match c.body k with
      | .ok _ k' => if ok k c k' then Kernel.runs cs k' else none
      | .error _ _ => none
    else none

theorem KernelRun.runs {k k' : Kernel} (h : KernelRun ok k) {cs : List Call}
    (hcs : k.runs ok cs = some k') : KernelRun ok k' := by
  induction cs generalizing k with
  | nil =>
    obtain rfl : k = k' := Option.some.inj hcs
    exact h
  | cons c cs ih =>
    rw [Kernel.runs] at hcs
    split_ifs at hcs with hc
    cases hbody : c.body k with
    | error e k1 =>
      rw [hbody] at hcs
      exact absurd hcs (by simp)
    | ok u k1 =>
      rw [hbody] at hcs
      dsimp only at hcs
      split_ifs at hcs with hok
      exact ih (h.step c hc hbody hok) hcs

def Kernel.zero (endPage trampoline : ℕ) (luck : List Bool) : Kernel where
  phys := ⟨fun _ => zeroPage, [], luck, endPage, trampoline⟩
  proc _ := ⟨.UNUSED, none, none, none, 0, fun _ => none, [], none⟩
  file _ := ⟨.FD_NONE, 0, false, 0⟩
  pipe _ := ⟨false, false⟩
  initproc := none
  boot := []

omit [∀ k c k', Decidable (ok k c k')] in
theorem Kernel.zero_run {endPage : ℕ} (hend : endPage ≤ PHYSPAGES) (trampoline : ℕ)
    (luck : List Bool) : KernelRun ok (Kernel.zero endPage trampoline luck).booted := by
  have hpower : PowerOn (Kernel.zero endPage trampoline luck) := {
    free := rfl
    endPage := hend
    proc := fun _ => ⟨rfl, rfl, rfl, rfl, rfl, rfl, rfl⟩
    file := fun _ => ⟨rfl, rfl⟩
    boot := rfl }
  exact KernelRun.boot hpower hpower.kinit_eq

def startInit : List Call :=
  [.bootAlloc .kvmmake, .bootAlloc .virtio, .userinit, .sched 0 .RUNNING, .forkret 0 true,
    .execSegment 0 (some ⟨true, true, false, 0, 8000, 8192⟩) 2, .execCommit 0]

end Examples
end Xv6
