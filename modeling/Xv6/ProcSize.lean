import Xv6.PageOwnership

/-! Fork, exec, page faults and the copying of user memory rely on every `p->sz` being at most
`TRAPFRAME`; the lazy path of `sys_sbrk` does not look at that bound. -/
namespace Xv6
open StateOutcome RadixTree PlaceCount

structure UserBelowTrapframe (k : Kernel) : Prop where
  bounded : k.sizesBounded
  /-- User code and the kernel on its behalf access only what lies below the trapframe. -/
  access : ∀ p image va a, k.UserAccess p image va a → va < TRAPFRAME
  /-- A trapframe that is in use was not freed. -/
  trapframe : ∀ p q, (k.proc p).trapframe = some q → q ∉ k.phys.free

/-- The panics of `walk`, of `mappages` and of `kfree`. -/
def Halt.ofMemory (e : Halt) : Prop :=
  e = .panic "walk" ∨ e = .panic "mappages: remap" ∨ e = .panic "kfree"

section Bounded
variable {k : Kernel} {tr : Fin NPROC → Trees}

theorem KernelInv.below (h : KernelInv k tr none) : UserBelowTrapframe k := by
  have hpages := h.opened.pages
  refine ⟨h.sizes, ?_, ?_⟩
  · intro p image va a ha
    have hx := hpages.place_of_access ha
    rw [Kernel.pageAt] at hx
    split_ifs at hx with hlow
    calc
      va < (va/PGSIZE+1)*PGSIZE := by
        rw [PGSIZE]
        omega
      _ ≤ TFVPN*PGSIZE := Nat.mul_le_mul_right _ hlow
      _ = TRAPFRAME := vpn_trapframe
  · intro p q hq hfree
    obtain ⟨n,hn⟩ := List.mem_iff_getElem?.mp hfree
    have htf : k.pageAt (.trapframe p) = some q := hq
    have hlist : k.pageAt (.free n) = some q := hn
    obtain ⟨x,_,hone⟩ := hpages.one_place (hpages.place_alloc htf)
    exact absurd ((hone _ htf).trans (hone _ hlist).symm) (by simp)

theorem Call.mayStop.not_ofMemory {c : Call} {e : Halt} (h : c.mayStop k e) (hfits : c.fits k)
    (hb : k.sizesBounded) : ¬e.ofMemory := by
  cases e with
  | asleep => simp [Halt.ofMemory]
  | panic msg =>
    intro he
    simp only [Halt.ofMemory, Halt.panic.injEq] at he
    cases c with
    | sbrk p n t =>
      obtain ⟨⟨hpos,hbig⟩,_⟩ := h
      have hle := Fits.addInt_le hfits (le_of_lt hpos) (hb p)
      omega
    | bootAlloc u =>
      rw [show msg = u.failure from h] at he
      cases u <;> simp [BootUse.failure] at he
    | userinit | exit _ | forkret _ _ | execLast _ _ _ | execSegment _ _ _ | execCommit _ =>
      rw [show msg = _ from h] at he
      simp at he
    | _ => exact h

end Bounded

/-- As long as every `sys_sbrk` asks for an end of memory at or below the trapframe, the sizes
stay in bounds and no call runs into the panics that the bound excludes. -/
theorem sizes_bounded_of_fits {k : Kernel} (hrun : KernelRun (fun k c _ => c.fits k) k) :
    UserBelowTrapframe k ∧ ∀ c : Call, c.enabled k = true → c.fits k →
      post c.body k (fun _ k' => UserBelowTrapframe k') (fun e _ => ¬e.ofMemory) := by
  obtain ⟨tr,h⟩ := hrun.inv (fun _ _ _ => Or.inl)
  refine ⟨h.below, ?_⟩
  intro c hc hfits
  apply post_mono (Call.body_post h c hc)
  · intro _ k' hgood
    obtain ⟨tr',h'⟩ := hgood (Or.inl hfits)
    exact h'.below
  · intro e _ hstop
    exact hstop.not_ofMemory hfits h.sizes

theorem sizes_bounded_of_fits_init : ∃ k, KernelRun (fun k c _ => c.fits k) k ∧
    (k.proc 0).sz = 16384+2147483647 ∧ UserBelowTrapframe k := by
  have hend : (0x80022 : ℕ) ≤ PHYSPAGES := by decide
  have hrun := Kernel.zero_run (fun k c _ => c.fits k) hend 0x80007 []
  have heval : ((Kernel.zero 0x80022 0x80007 []).booted.runs (fun k c _ => c.fits k)
      (startInit ++ [.sbrk 0 2147483647 2, .fault 0 2147483647])).any
      (fun k => (k.proc 0).sz = 16384+2147483647) = true := by
    decide +kernel
  obtain ⟨k,hk,hsz⟩ := (Option.any_eq_true _ _).mp heval
  have hreach := hrun.runs _ hk
  exact ⟨k, hreach, of_decide_eq_true hsz, (sizes_bounded_of_fits hreach).1⟩

def panicMessage {α : Type} : EStateM.Result Halt Kernel α → Option String
  | .error (.panic msg) _ => some msg
  | _ => none

/-- A process that grows lazily 129 times by the largest `int` is larger than the address space,
and the next fault above it ends in `walk`. -/
theorem lazy_sbrk_panics : ∃ k, KernelRun (fun _ _ _ => True) k ∧ TRAPFRAME < (k.proc 0).sz ∧
    (Call.fault 0 MAXVA).enabled k = true ∧
    ∃ k', (Call.fault 0 MAXVA).body k = .error (.panic "walk") k' := by
  have hend : (0x80022 : ℕ) ≤ PHYSPAGES := by decide
  have hrun := Kernel.zero_run (fun _ _ _ => True) hend 0x80007 []
  have heval : ((Kernel.zero 0x80022 0x80007 []).booted.runs (fun _ _ _ => True)
      (startInit ++ List.replicate 129 (.sbrk 0 2147483647 2))).any
      (fun k => decide (TRAPFRAME < (k.proc 0).sz) && (Call.fault 0 MAXVA).enabled k &&
        panicMessage ((Call.fault 0 MAXVA).body k) == some "walk") = true := by
    decide +kernel
  obtain ⟨k,hk,hcheck⟩ := (Option.any_eq_true _ _).mp heval
  rw [Bool.and_eq_true, Bool.and_eq_true, decide_eq_true_eq] at hcheck
  obtain ⟨⟨hsz,hc⟩,hpanic⟩ := hcheck
  refine ⟨k, hrun.runs _ hk, hsz, hc, ?_⟩
  replace hpanic := eq_of_beq hpanic
  cases hbody : (Call.fault 0 MAXVA).body k with
  | ok _ _ =>
    rw [hbody] at hpanic
    cases hpanic
  | error e k' =>
    rw [hbody] at hpanic
    cases e with
    | asleep => cases hpanic
    | panic msg => exact ⟨k', by rw [Option.some.inj hpanic]⟩

end Xv6
