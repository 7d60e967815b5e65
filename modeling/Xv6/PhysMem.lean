import Xv6.DiskBlock
import Xv6.StateOutcome

/-! Physical pages and their allocator, kernel/kalloc.c. A page is its address divided by `PGSIZE`;
of its contents only the 512 entries of a page table matter. `kmem.freelist` is the list of the
pages in it. -/
namespace Xv6
open StateOutcome Function

abbrev PGSIZE : ℕ := 4096
abbrev KERNBASE : ℕ := 0x80000000
abbrev PHYSTOP : ℕ := KERNBASE+128*1024*1024

abbrev PHYSPAGES : ℕ := PHYSTOP/PGSIZE

/-- `PTE_R`, `PTE_W`, `PTE_X` and `PTE_U`. -/
structure Perm where
  r : Bool
  w : Bool
  x : Bool
  u : Bool
  deriving DecidableEq, Repr

/-- A page-table entry with `PTE_V` set. -/
structure Pte where
  ppn : ℕ
  perm : Perm
  deriving DecidableEq, Repr

/-- The contents of a page, as page-table entries; `none` is an entry without `PTE_V`. -/
abbrev Page := Fin 512 → Option Pte

structure Phys where
  mem : ℕ → Page
  free : List ℕ
  /-- Which of the coming calls of `kalloc` fail even though pages are left. -/
  luck : List Bool
  /-- The first page behind the kernel image (`end` in the linker script). -/
  endPage : ℕ
  /-- The page of the kernel image that trampoline.S is in. -/
  trampoline : ℕ

abbrev Vm := EStateM Halt Phys

def fillPage (q : ℕ) (c : Page) : Vm Unit :=
  modify fun ph => { ph with mem := update ph.mem q c }

def setPte (q : ℕ) (i : Fin 512) (pte : Option Pte) : Vm Unit :=
  modify fun ph => { ph with
    mem := update ph.mem q (update (ph.mem q) i pte) }

def freedJunk : Page := fun _ => some ⟨0x0101010101010101/2^10, ⟨false,false,false,false⟩⟩

def freshJunk : Page := fun _ => some ⟨0x0505050505050505/2^10, ⟨false,true,false,false⟩⟩

def zeroPage : Page := fun _ => none

def kfree (q : ℕ) : Vm Unit := do
  let ph ← get
  if q < ph.endPage ∨ PHYSPAGES ≤ q then
    throw (.panic "kfree")
  else do
    fillPage q freedJunk
    modify fun ph => { ph with free := q :: ph.free }

def kalloc : Vm (Option ℕ) := do
  let ph ← get
  modify fun ph => { ph with luck := ph.luck.tail }
  if ph.luck.head? = some true then
    return none
  else
    match ph.free with
    | [] => return none
    | q :: rest => do
      modify fun ph => { ph with free := rest }
      fillPage q freshJunk
      return some q

/-- The loop of `freerange`, for the `n` pages from `q` on. -/
def freeLoop : ℕ → ℕ → Vm Unit
  | 0, _ => return
  | n+1, q => do
    kfree q
    freeLoop n (q+1)

/-- `freerange(end, PHYSTOP)`. -/
def kinit : Vm Unit := do
  let ph ← get
  freeLoop (PHYSPAGES-ph.endPage) ph.endPage

def single (q : ℕ) : ℕ → ℕ := fun a => if q = a then 1 else 0

/-- The pages counted by `X`, together with the free ones, are allocatable and occur once. -/
structure Holds (ph : Phys) (X : ℕ → ℕ) : Prop where
  once : ∀ a, ph.free.count a+X a ≤ 1
  range : ∀ a, 0 < ph.free.count a+X a → ph.endPage ≤ a ∧ a < PHYSPAGES

/-- From `ph` to `ph'` the pages `X` were turned into the pages `X'`: no page is lost or
doubled, and no other page was written to. -/
structure Moves (ph ph' : Phys) (X X' : ℕ → ℕ) : Prop where
  count : ∀ a, ph'.free.count a+X' a = ph.free.count a+X a
  outside : ∀ a, ph.free.count a+X a = 0 → ph'.mem a = ph.mem a
  endPage : ph'.endPage = ph.endPage

theorem Moves.refl (ph : Phys) (X : ℕ → ℕ) : Moves ph ph X X := ⟨fun _ => rfl, fun _ _ => rfl, rfl⟩

variable {ph ph' : Phys} {X X' : ℕ → ℕ}

theorem Moves.same (hend : ph'.endPage = ph.endPage)
    (h : ph'.mem = ph.mem ∧ ph'.free = ph.free) (X : ℕ → ℕ) : Moves ph ph' X X := by
  refine ⟨?_, ?_, hend⟩
  · intro a
    rw [h.2]
  · intro a _
    rw [h.1]

theorem Moves.trans {ph1 ph2 ph3 : Phys} {X1 X2 X3 : ℕ → ℕ} (h : Moves ph1 ph2 X1 X2)
    (h' : Moves ph2 ph3 X2 X3) : Moves ph1 ph3 X1 X3 := by
  refine ⟨fun a => (h'.count a).trans (h.count a), ?_, h'.endPage.trans h.endPage⟩
  intro a ha
  rw [h'.outside a ((h.count a).trans ha), h.outside a ha]

theorem Moves.holds (h : Moves ph ph' X X') (hx : Holds ph X) :
    Holds ph' X' := by
  constructor
  · intro a
    rw [h.count a]
    exact hx.once a
  · intro a ha
    rw [h.count a] at ha
    rw [h.endPage]
    exact hx.range a ha

theorem Moves.frame (h : Moves ph ph' X X') (Y : ℕ → ℕ) :
    Moves ph ph' (fun a => X a+Y a) (fun a => X' a+Y a) := by
  refine ⟨?_, ?_, h.endPage⟩
  · intro a
    have := h.count a
    omega
  · intro a ha
    exact h.outside a (by omega)

theorem Holds.mono {Y : ℕ → ℕ} (h : Holds ph X) (hle : ∀ a, Y a ≤ X a) :
    Holds ph Y := by
  constructor
  · intro a
    have := h.once a
    have := hle a
    omega
  · intro a ha
    have := hle a
    exact h.range a (by omega)

theorem Moves.congr {Y Y' : ℕ → ℕ} (h : Moves ph ph' X X')
    (hx : ∀ a, X a = Y a) (hx' : ∀ a, X' a = Y' a) : Moves ph ph' Y Y' := by
  obtain rfl : X = Y := funext hx
  obtain rfl : X' = Y' := funext hx'
  exact h

theorem kalloc_post (ph : Phys) : post kalloc ph (fun r ph' => ph'.endPage = ph.endPage ∧
      match r with
      | none => ph'.mem = ph.mem ∧ ph'.free = ph.free
      | some q => ph'.mem = update ph.mem q freshJunk ∧ ph.free = q :: ph'.free)
      never := by
  unfold kalloc
  rw [post_bind, post_get, post_bind, post_modify]
  split_ifs with hl
  · exact ⟨rfl,rfl,rfl⟩
  · cases hf : ph.free with
    | nil => exact ⟨rfl,rfl,rfl⟩
    | cons q rest => exact ⟨rfl,rfl,rfl⟩

theorem kalloc_moves {q : ℕ} (hend : ph'.endPage = ph.endPage)
    (hmem : ph'.mem = update ph.mem q freshJunk) (hfree : ph.free = q :: ph'.free) :
    Moves ph ph' (fun _ => 0) (single q) := by
  refine ⟨?_, ?_, hend⟩
  · intro a
    rw [hfree, List.count_cons, single]
    simp only [beq_iff_eq]
    omega
  · intro a ha
    rw [hmem]
    apply update_of_ne
    rintro rfl
    rw [hfree, List.count_cons_self] at ha
    omega

theorem kfree_post {q : ℕ} (h : Holds ph (single q)) :
    post (kfree q) ph (fun _ ph' => Moves ph ph' (single q) (fun _ => 0) ∧
      ∀ a, a ≠ q → ph'.mem a = ph.mem a) never := by
  have hrange := h.range q (by rw [single, if_pos rfl]; omega)
  unfold kfree
  rw [post_bind, post_get, if_neg (by omega), post_bind, fillPage, post_modify]
  refine ⟨⟨?_, ?_, rfl⟩, ?_⟩
  · intro a
    rw [List.count_cons, single]
    simp only [beq_iff_eq]
    omega
  · intro a ha
    apply update_of_ne
    rintro rfl
    rw [single, if_pos rfl] at ha
    omega
  · intro a ha
    exact update_of_ne ha _ _

end Xv6
