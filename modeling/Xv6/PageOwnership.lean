import Xv6.KernelRun
import Xv6.PagePlaces

/-! Every page of the memory behind the kernel is at one place in every state of a run in which the
sizes of processes stay below the trapframe. -/
namespace Xv6
open StateOutcome RadixTree PlaceCount

def Place.owner : Place → Option (Fin NPROC)
  | .table p _ _ | .user p _ _ | .trapframe p | .arg p _ => some p
  | .free _ | .pipe _ | .boot _ => none

/-- The place is in the address space of process `p`, or in the one it is building. -/
def Place.inSpace (p : Fin NPROC) (image : Bool) : Place → Prop
  | .table p' image' _ | .user p' image' _ => p' = p ∧ image' = image
  | _ => False

/-- User code that runs in the address space can access page `a` at address `va`. -/
def Kernel.UserAccess (k : Kernel) (p : Fin NPROC) (image : Bool) (va a : ℕ) : Prop :=
  ∃ q, k.root p image = some q ∧ walkaddr q (va/PGSIZE*PGSIZE) k.phys = .ok (some a) k.phys

/-- The pages in a state of the kernel. -/
structure OwnedPages (k : Kernel) : Prop where
  /-- Every page behind the kernel image is at exactly one place, -/
  one_place : ∀ a, k.phys.endPage ≤ a → a < PHYSPAGES → ∃! x, k.pageAt x = some a
  /-- and no other page is at any. -/
  allocatable : ∀ x a, k.pageAt x = some a → k.phys.endPage ≤ a ∧ a < PHYSPAGES
  /-- A page is accessible to user code in one address space and at one address. -/
  user_once : ∀ p p' image image' va va' a, k.UserAccess p image va a →
    k.UserAccess p' image' va' a → p = p' ∧ image = image' ∧ va/PGSIZE = va'/PGSIZE
  /-- A free slot of the process table holds nothing. -/
  unused : ∀ p x, (k.proc p).state = .UNUSED → x.owner = some p → k.pageAt x = none
  /-- `freeproc` returns every page of the process, -/
  freeproc : ∀ p, (k.proc p).image = none → (k.proc p).argv = [] →
    post (freeproc p) k (fun _ k' => ∀ x a, x.owner = some p → k.pageAt x = some a →
      a ∈ k'.phys.free) (fun _ _ => False)
  /-- and `proc_freepagetable` every page of an address space. -/
  freepagetable : ∀ p image q, k.root p image = some q →
    post (procFreepagetable q (k.size p image)) k.phys (fun _ ph' => ∀ x a,
      x.inSpace p image → k.pageAt x = some a → a ∈ ph'.free) (fun _ _ => False)
  /-- No call runs into `freewalk: leaf`, into a `kfree` of what is no allocated page, or into
  any panic but those listed. -/
  stops : ∀ c : Call, c.enabled k = true →
    post c.body k (fun _ _ => True) (fun e _ => c.mayStop k e)

variable {a : ℕ} {p : Fin NPROC}

section Owned
variable {k : Kernel} {tr : Fin NPROC → Trees}

/-- The page at a place of process `p` is counted among those that `p` holds. -/
theorem Pages.held_of_owner (h : Pages k tr) {x : Place}
    (hx : k.pageAt x = some a) (howner : x.owner = some p) :
    0 < procHeld (k.proc p) (tr p) a := by
  have hsplit := h.place_split hx
  apply ((procHeld_tallies (k.proc p) (tr p)).exists_iff a).mpr
  cases x with
  | trapframe p' =>
    obtain rfl : p' = p := Option.some.inj howner
    exact ⟨.inl (.inl (.inl ())), hsplit⟩
  | table p' image path =>
    obtain rfl : p' = p := Option.some.inj howner
    cases image with
    | false => exact ⟨.inl (.inl (.inr path)), hsplit⟩
    | true => exact ⟨.inl (.inr path), hsplit⟩
  | user p' image n =>
    obtain rfl : p' = p := Option.some.inj howner
    cases image with
    | false => exact ⟨.inl (.inl (.inr (keyPath px 2 (n*PGSIZE)))), hsplit⟩
    | true => exact ⟨.inl (.inr (keyPath px 2 (n*PGSIZE))), hsplit⟩
  | arg p' n =>
    obtain rfl : p' = p := Option.some.inj howner
    exact ⟨.inr n, hsplit⟩
  | free | pipe | boot => exact absurd howner (by simp [Place.owner])

theorem Pages.held_of_inSpace (h : Pages k tr) {image : Bool} {x : Place}
    {T : PageTree 2} (hT : treeOf (tr p) image = some T) (hx : k.pageAt x = some a)
    (hspace : x.inSpace p image) : 0 < pages 2 T a := by
  apply ((pageAt_tallies Leaf.owned 2 T).exists_iff a).mpr
  cases x with
  | table p' image' path =>
    obtain ⟨rfl,rfl⟩ := hspace
    rw [Kernel.pageAt] at hx
    split_ifs at hx with hlen
    rw [h.table_some hlen, hT] at hx
    exact ⟨path,hx⟩
  | user p' image' n =>
    obtain ⟨rfl,rfl⟩ := hspace
    rw [Kernel.pageAt] at hx
    split_ifs at hx with hn
    rw [h.user_some hn, hT] at hx
    exact ⟨_,hx⟩
  | _ => exact hspace.elim

theorem Pages.place_of_access (h : Pages k tr) {image : Bool} {va : ℕ}
    (ha : k.UserAccess p image va a) : k.pageAt (.user p image (va/PGSIZE)) = some a := by
  obtain ⟨q,hq,hrun⟩ := ha
  obtain ⟨T,hT,hs,_⟩ := h.sized hq
  have hwalk := walkaddr_post (va/PGSIZE) hs.maps
  rw [hs.root] at hwalk
  have hres := (post_ok hwalk hrun).2
  split_ifs at hres with hva
  obtain ⟨b,hb,hu⟩ := Option.bind_eq_some_iff.mp hres.symm
  have hvpn : va/PGSIZE < NVPN := by
    rw [MAXVA, PGSIZE] at hva
    rw [NVPN, PGSIZE]
    omega
  split_ifs at hu with hbu
  have hlow := (hs.leaves _ b hvpn hb).2.2 hbu
  rw [Kernel.pageAt, if_pos hlow, h.user_some hlow, hT, Option.bind_some, pageAt_keyPath]
  change (leafOf T (va/PGSIZE)).bind _ = _
  rw [hb, Option.bind_some, Leaf.owned, if_pos (hs.own hlow hb)]
  exact hu

theorem Moves.mem_free {ph ph' : Phys} {X : ℕ → ℕ} (h : Moves ph ph' X (fun _ => 0))
    (ha : 0 < X a) : a ∈ ph'.free := by
  have := h.count a
  exact List.count_pos_iff.mp (by omega)

theorem KernelInv.owned (h : KernelInv k tr none) : OwnedPages k := by
  have hpages := h.opened.pages
  refine ⟨?_, ?_, ?_, ?_, ?_, ?_, ?_⟩
  · intro a hlow hhigh
    exact hpages.one_place ⟨hlow,hhigh⟩
  · intro x a hx
    exact hpages.place_alloc hx
  · intro p p' image image' va va' a ha ha'
    have hx := hpages.place_of_access ha
    have hx' := hpages.place_of_access ha'
    obtain ⟨y,_,hone⟩ := hpages.one_place (hpages.place_alloc hx)
    have heq := (hone _ hx).trans (hone _ hx').symm
    injection heq with hp himage hva
    exact ⟨hp,himage,hva⟩
  · intro p x hun howner
    cases hx : k.pageAt x with
    | none => rfl
    | some a =>
      have hpos := hpages.held_of_owner hx howner
      rw [hpages.empty_held (h.empty hun)] at hpos
      exact absurd hpos (Nat.lt_irrefl 0)
  · intro p himg hargv
    apply post_imp (freeproc_moves hpages p himg hargv)
    rintro _ k' ⟨ph',rfl,hmove⟩ x a howner hx
    exact hmove.mem_free (hpages.held_of_owner hx howner)
  · intro p image q hq
    obtain ⟨T,hT,hs,hh⟩ := hpages.sized hq
    apply post_imp (procFreepagetable_post hs hh)
    intro _ ph' hmove x a hspace hx
    exact hmove.mem_free (hpages.held_of_inSpace hT hx hspace)
  · intro c hc
    exact post_imp (Call.body_post h c hc) (fun _ _ _ => trivial)

end Owned

/-- In every run that keeps the sizes of processes in bounds, every page has one place. -/
theorem pages_owned {k : Kernel} (hrun : KernelRun (fun _ _ k' => k'.sizesBounded) k) :
    OwnedPages k := by
  obtain ⟨tr,h⟩ := hrun.inv (fun _ _ _ => Or.inr)
  exact h.owned

/-- A run with lazy and eager growth, a pipe, a `kalloc` that fails in `fork`, and a child that
is forked, exits and is waited for. -/
theorem pages_owned_family : ∃ k, KernelRun (fun _ _ k' => k'.sizesBounded) k ∧
    (k.proc 1).state = .UNUSED ∧ (k.proc 0).sz = 24576 ∧ OwnedPages k := by
  obtain ⟨luck,hluck⟩ : ∃ luck, luck = List.replicate 24 false ++ [true] := ⟨_,rfl⟩
  have hend : (0x80022 : ℕ) ≤ PHYSPAGES := by decide
  have hrun := Kernel.zero_run (fun _ _ k' => k'.sizesBounded) hend 0x80007 luck
  have heval : ((Kernel.zero 0x80022 0x80007 luck).booted.runs (fun _ _ k' => k'.sizesBounded)
      (startInit ++ [.sbrk 0 4096 2, .fault 0 16384, .sbrk 0 4096 1, .pipe 0 0, .fork 0, .fork 0,
        .sched 1 .RUNNING, .exit 1, .wait 0 16384])).any
      (fun k => (k.proc 1).state = .UNUSED && (k.proc 0).sz = 24576) = true := by
    rw [hluck]
    decide +kernel
  obtain ⟨k,hk,hstate⟩ := (Option.any_eq_true _ _).mp heval
  simp only [Bool.and_eq_true, decide_eq_true_eq] at hstate
  have hreach := hrun.runs _ hk
  exact ⟨k, hreach, hstate.1, hstate.2, pages_owned hreach⟩

end Xv6
