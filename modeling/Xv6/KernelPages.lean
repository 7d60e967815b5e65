import Xv6.Exec
import Xv6.ProcPages

/-! Who holds which page. Every process holds its trapframe, its page table with the user pages
below it, and in `sys_exec` the argument buffers and the new page table; every pipe holds a page;
the rest is free or was taken at boot. -/
namespace Xv6
open StateOutcome RadixTree Function

/-- The trees that a process's page table, and the one `kexec` is building, have in memory. -/
structure Trees where
  table : Option (PageTree 2)
  image : Option (PageTree 2)

def argPages (pr : Proc) : List ℕ := pr.argv.filterMap Arg.page

def procHeld (pr : Proc) (tr : Trees) (a : ℕ) : ℕ :=
  pr.trapframe.elim 0 (fun q => single q a)+tr.table.elim 0 (fun T => pages 2 T a)+
    tr.image.elim 0 (fun T => pages 2 T a)+(argPages pr).count a

def IsPipe (file : Fin NFILE → File) (a : ℕ) : Prop :=
  ∃ i, (file i).type = .FD_PIPE ∧ (file i).pipe = a

instance (file : Fin NFILE → File) (a : ℕ) : Decidable (IsPipe file a) :=
  inferInstanceAs (Decidable (∃ i, (file i).type = .FD_PIPE ∧ (file i).pipe = a))

def pipeHeld (file : Fin NFILE → File) (a : ℕ) : ℕ := if IsPipe file a then 1 else 0

def held (k : Kernel) (tr : Fin NPROC → Trees) (a : ℕ) : ℕ :=
  (∑ p, procHeld (k.proc p) (tr p) a)+pipeHeld k.file a+k.boot.count a

structure ProcSpaces (mem : ℕ → Page) (pr : Proc) (tr : Trees) : Prop where
  table : Option.Rel (fun q T => Space mem q pr.sz T) pr.pagetable tr.table
  image : Option.Rel (fun (img : Image) T => Space mem img.pagetable img.sz T) pr.image tr.image

structure Pages (k : Kernel) (tr : Fin NPROC → Trees) : Prop where
  exact : ∀ a, k.phys.free.count a+held k tr a =
    if k.phys.endPage ≤ a ∧ a < PHYSPAGES then 1 else 0
  spaces : ∀ p, ProcSpaces k.phys.mem (k.proc p) (tr p)

section Updates

def Kernel.withPhys (k : Kernel) (ph : Phys) : Kernel := { k with phys := ph }

def Kernel.withProc (k : Kernel) (p : Fin NPROC) (pr : Proc) : Kernel :=
  { k with proc := update k.proc p pr }

def Kernel.withFiles (k : Kernel) (file : Fin NFILE → File) (pipe : ℕ → Pipe) : Kernel :=
  { k with file := file, pipe := pipe }

variable (k : Kernel) (ph ph' : Phys) (p : Fin NPROC) (pr pr' : Proc)
  (file file' : Fin NFILE → File) (pipe pipe' : ℕ → Pipe)

@[simp] theorem withPhys_phys : (k.withPhys ph).phys = ph := rfl
@[simp] theorem withPhys_proc : (k.withPhys ph).proc = k.proc := rfl
@[simp] theorem withProc_phys : (k.withProc p pr).phys = k.phys := rfl

@[simp] theorem withProc_self : (k.withProc p pr).proc p = pr := update_self _ _ _

variable {k p pr} in
theorem withProc_ne {p' : Fin NPROC} (h : p' ≠ p) : (k.withProc p pr).proc p' = k.proc p' :=
  update_of_ne h _ _

@[simp] theorem withPhys_withPhys : (k.withPhys ph).withPhys ph' = k.withPhys ph' := rfl

@[simp] theorem withProc_withPhys :
    (k.withProc p pr).withPhys ph = (k.withPhys ph).withProc p pr := rfl

@[simp] theorem withProc_withProc : (k.withProc p pr).withProc p pr' = k.withProc p pr' := by
  unfold Kernel.withProc
  rw [update_idem]

@[simp] theorem withFiles_phys : (k.withFiles file pipe).phys = k.phys := rfl
@[simp] theorem withFiles_pipe : (k.withFiles file pipe).pipe = pipe := rfl

theorem withProc_same : k.withProc p (k.proc p) = k := by
  unfold Kernel.withProc
  rw [update_eq_self]

theorem post_vm {α : Type} (x : Vm α) (k : Kernel) (Q : α → Kernel → Prop)
    (E : Halt → Kernel → Prop) :
    post (vm x) k Q E ↔ post x k.phys (fun a ph => Q a (k.withPhys ph))
      (fun e ph => E e (k.withPhys ph)) := by
  unfold post vm
  cases x k.phys <;> rfl

theorem post_setProc (f : Proc → Proc) (k : Kernel) (Q : Unit → Kernel → Prop)
    (E : Halt → Kernel → Prop) :
    post (setProc p f) k Q E ↔ Q () (k.withProc p (f (k.proc p))) := Iff.rfl

end Updates

variable {mem mem' : ℕ → Page}

section Frame
variable {k : Kernel} {tr : Fin NPROC → Trees}

theorem procHeld_le_held (k : Kernel) (tr : Fin NPROC → Trees) (p : Fin NPROC) (a : ℕ) :
    procHeld (k.proc p) (tr p) a ≤ held k tr a := by
  have hsum := Finset.single_le_sum (f := fun p => procHeld (k.proc p) (tr p) a)
    (fun _ _ => Nat.zero_le _) (Finset.mem_univ p)
  unfold held
  omega

/-- What two different processes hold are different parts of the whole. -/
theorem two_procs_le_held (k : Kernel) (tr : Fin NPROC → Trees) {p p' : Fin NPROC} (hp : p ≠ p')
    (a : ℕ) : procHeld (k.proc p) (tr p) a+procHeld (k.proc p') (tr p') a ≤ held k tr a := by
  have hsum := Finset.add_sum_erase Finset.univ (fun p => procHeld (k.proc p) (tr p) a)
    (Finset.mem_univ p)
  have hrest := Finset.single_le_sum (f := fun p => procHeld (k.proc p) (tr p) a)
    (s := Finset.univ.erase p) (fun _ _ => Nat.zero_le _)
    (Finset.mem_erase.mpr ⟨hp.symm, Finset.mem_univ p'⟩)
  unfold held
  omega

theorem Pages.holds_of_le (h : Pages k tr) {X : ℕ → ℕ} (hle : ∀ a, X a ≤ held k tr a) :
    Holds k.phys X := by
  constructor
  · intro a
    have hexact := h.exact a
    have := hle a
    split_ifs at hexact <;> omega
  · intro a ha
    have hexact := h.exact a
    have := hle a
    split_ifs at hexact with hr
    · exact hr
    · omega

theorem Pages.holds (h : Pages k tr) (p : Fin NPROC) : Holds k.phys (procHeld (k.proc p) (tr p)) :=
  h.holds_of_le (procHeld_le_held k tr p)

theorem Space.congr {q sz : ℕ} {T : PageTree 2} (h : Space mem q sz T)
    (hmem : ∀ a, 0 < pages 2 T a → mem' a = mem a) : Space mem' q sz T :=
  ⟨h.root, h.maps.congr hmem, h.leaves, h.top, h.size⟩

theorem rel_imp {α β : Type} {r r' : α → β → Prop} {x : Option α} {y : Option β}
    (h : Option.Rel r x y) (himp : ∀ a b, y = some b → r a b → r' a b) : Option.Rel r' x y := by
  cases h with
  | none => exact Option.Rel.none
  | some hab => exact Option.Rel.some (himp _ _ rfl hab)

theorem ProcSpaces.congr {pr : Proc} {t : Trees}
    (h : ProcSpaces mem pr t) (hmem : ∀ a, 0 < procHeld pr t a → mem' a = mem a) :
    ProcSpaces mem' pr t := by
  constructor
  · apply rel_imp h.table
    intro q T hT hs
    refine hs.congr fun a ha => hmem a ?_
    rw [procHeld, hT, Option.elim_some]
    omega
  · apply rel_imp h.image
    intro img T hT hs
    refine hs.congr fun a ha => hmem a ?_
    simp only [procHeld, hT, Option.elim_some]
    omega

theorem Pages.change (h : Pages k tr) (p : Fin NPROC) {ph' : Phys} {pr' : Proc} {t' : Trees}
    (hmove : Moves k.phys ph' (procHeld (k.proc p) (tr p)) (procHeld pr' t'))
    (hspaces : ProcSpaces ph'.mem pr' t') :
    Pages ((k.withPhys ph').withProc p pr') (update tr p t') := by
  have hother : ∀ p', p' ≠ p →
      procHeld (((k.withPhys ph').withProc p pr').proc p') (update tr p t' p') =
        procHeld (k.proc p') (tr p') := by
    intro p' hp
    rw [withProc_ne hp, withPhys_proc, update_of_ne hp]
  constructor
  · intro a
    have hexact := h.exact a
    have hcount := hmove.count a
    have hold := Finset.add_sum_erase Finset.univ (fun p => procHeld (k.proc p) (tr p) a)
      (Finset.mem_univ p)
    have hnew := Finset.add_sum_erase Finset.univ (fun p' => procHeld
      (((k.withPhys ph').withProc p pr').proc p') (update tr p t' p') a)
      (Finset.mem_univ p)
    have hrest : ∑ p' ∈ Finset.univ.erase p, procHeld
        (((k.withPhys ph').withProc p pr').proc p') (update tr p t' p') a =
        ∑ p' ∈ Finset.univ.erase p, procHeld (k.proc p') (tr p') a := by
      apply Finset.sum_congr rfl
      intro p' hp
      rw [hother p' (Finset.ne_of_mem_erase hp)]
    rw [withProc_self, update_self] at hnew
    rw [withProc_phys, withPhys_phys, hmove.endPage]
    change ph'.free.count a+(_+pipeHeld k.file a+k.boot.count a) = _
    rw [held] at hexact
    omega
  · intro p'
    by_cases hp : p' = p
    · rw [hp, withProc_self, update_self]
      exact hspaces
    · rw [withProc_ne hp, update_of_ne hp]
      -- the pages of the other process are not among those that changed
      apply (h.spaces p').congr
      intro a ha
      apply hmove.outside
      have hexact := h.exact a
      have htwo := two_procs_le_held k tr (Ne.symm hp) a
      split_ifs at hexact <;> omega

theorem Pages.changeFiles (h : Pages k tr) {ph' : Phys} {file' : Fin NFILE → File}
    (pipe' : ℕ → Pipe) (hmove : Moves k.phys ph' (pipeHeld k.file) (pipeHeld file')) :
    Pages ((k.withPhys ph').withFiles file' pipe') tr := by
  constructor
  · intro a
    have hexact := h.exact a
    have hcount := hmove.count a
    rw [withFiles_phys, withPhys_phys, hmove.endPage]
    change ph'.free.count a+((∑ p, procHeld (k.proc p) (tr p) a)+pipeHeld file' a+k.boot.count a) = _
    rw [held] at hexact
    omega
  · intro p
    apply (h.spaces p).congr
    intro a ha
    apply hmove.outside
    have hexact := h.exact a
    have hle := Finset.single_le_sum (f := fun p => procHeld (k.proc p) (tr p) a)
      (fun _ _ => Nat.zero_le _) (Finset.mem_univ p)
    rw [held] at hexact
    split_ifs at hexact <;> omega

end Frame

end Xv6
