import Xv6.ExecCalls

/-! Where a physical page can be: on the free list, as a table or a user page of an address space,
as a trapframe, an argument buffer or a pipe, or taken at boot. By the counts of `Pages` every page
is at exactly one of these places. -/
namespace Xv6
open StateOutcome RadixTree PlaceCount

/-- A place for a page. An address space is that of a process, or (`image`) the one that `kexec`
is building; `path` are the indices from the root to a table, `vpn` is a virtual page number. -/
inductive Place where
  | free (n : ℕ)
  | table (p : Fin NPROC) (image : Bool) (path : List (Fin 512))
  | user (p : Fin NPROC) (image : Bool) (vpn : ℕ)
  | trapframe (p : Fin NPROC)
  | arg (p : Fin NPROC) (n : ℕ)
  | pipe (q : ℕ)
  | boot (n : ℕ)

def Kernel.root (k : Kernel) (p : Fin NPROC) (image : Bool) : Option ℕ :=
  if image then (k.proc p).image.map Image.pagetable else (k.proc p).pagetable

def Kernel.size (k : Kernel) (p : Fin NPROC) (image : Bool) : ℕ :=
  if image then (k.proc p).image.elim 0 Image.sz else (k.proc p).sz

/-- The page at a place. User pages are those below the trapframe; the trapframe's own mapping
and the trampoline's are other names of pages that are elsewhere. -/
def Kernel.pageAt (k : Kernel) : Place → Option ℕ
  | .free n => k.phys.free[n]?
  | .table p image path => if path.length ≤ 2 then
      (k.root p image).bind fun q => follow Pte.ppn k.phys.mem q path else none
  | .user p image vpn => if vpn < TFVPN then
      (k.root p image).bind fun q => follow Pte.ppn k.phys.mem q (keyPath px 2 (vpn*PGSIZE))
      else none
  | .trapframe p => (k.proc p).trapframe
  | .arg p n => (argPages (k.proc p))[n]?
  | .pipe q => if IsPipe k.file q then some q else none
  | .boot n => k.boot[n]?

theorem tablePte_ppn (q : ℕ) : (tablePte q).ppn = q := rfl

/-- The virtual page number with three given digits. -/
def vpnOf : List (Fin 512) → ℕ
  | [i,j,l] => i.val*2^18+j.val*2^9+l.val
  | _ => 0

theorem keyPath_vpnOf (i j l : Fin 512) : keyPath px 2 (vpnOf [i,j,l]*PGSIZE) = [i,j,l] := by
  have h2 : px 2 (vpnOf [i,j,l]*PGSIZE) = i := by
    apply Fin.ext
    rw [px_vpn, vpnOf]
    omega
  have h1 : px 1 (vpnOf [i,j,l]*PGSIZE) = j := by
    apply Fin.ext
    rw [px_vpn, vpnOf]
    omega
  have h0 : px 0 (vpnOf [i,j,l]*PGSIZE) = l := by
    apply Fin.ext
    rw [px_vpn, vpnOf]
    omega
  change [px 2 _, px 1 _, px 0 _] = _
  rw [h2, h1, h0]

variable {n a : ℕ} {path : List (Fin 512)} {x : Place}

theorem vpnOf_keyPath (hn : n < NVPN) : vpnOf (keyPath px 2 (n*PGSIZE)) = n := by
  change (px 2 (n*PGSIZE)).val*2^18+(px 1 (n*PGSIZE)).val*2^9+(px 0 (n*PGSIZE)).val = n
  rw [px_vpn, px_vpn, px_vpn]
  rw [NVPN] at hn
  omega

theorem vpnOf_lt (i j l : Fin 512) : vpnOf [i,j,l] < NVPN := by
  rw [vpnOf, NVPN]
  omega

section Space
variable {mem : ℕ → Page} {q sz a : ℕ} {T : PageTree 2}

theorem Space.table_iff (h : Space mem q sz T) (hpath : path.length ≤ 2) :
    follow Pte.ppn mem q path = RadixTree.pageAt Leaf.owned 2 T path := by
  rw [← h.root]
  exact h.maps.follow_table Leaf.owned tablePte_ppn hpath

theorem Space.user_iff (h : Space mem q sz T) (hn : n < TFVPN) :
    follow Pte.ppn mem q (keyPath px 2 (n*PGSIZE)) =
      RadixTree.pageAt Leaf.owned 2 T (keyPath px 2 (n*PGSIZE)) := by
  rw [← h.root, h.maps.follow_key tablePte_ppn, pageAt_keyPath]
  change (leafOf T n).map _ = (leafOf T n).bind _
  cases ha : leafOf T n with
  | none => rfl
  | some a =>
    rw [Option.bind_some, Leaf.owned, if_pos (h.own hn ha)]
    rfl

theorem Space.position (h : Space mem q sz T) (hq : RadixTree.pageAt Leaf.owned 2 T path = some a) :
    path.length ≤ 2 ∨ ∃ n, n < TFVPN ∧ path = keyPath px 2 (n*PGSIZE) := by
  by_cases hlen : path.length ≤ 2
  · exact Or.inl hlen
  right
  by_cases hlong : 2+1 < path.length
  · rw [pageAt_long Leaf.owned T hlong] at hq
    exact absurd hq (by simp)
  obtain ⟨i,j,l,rfl⟩ := List.length_eq_three.mp (show path.length = 3 by omega)
  rw [← keyPath_vpnOf, pageAt_keyPath] at hq
  obtain ⟨b,hb,hown⟩ := Option.bind_eq_some_iff.mp hq
  refine ⟨vpnOf [i,j,l], ?_, (keyPath_vpnOf i j l).symm⟩
  apply (h.leaves _ b (vpnOf_lt i j l) hb).2.1.mp
  by_contra hno
  rw [Leaf.owned, if_neg hno] at hown
  exact absurd hown (by simp)

end Space

theorem tree_tallies (t : Option (PageTree 2)) :
    Tallies (fun path => t.bind fun T => RadixTree.pageAt Leaf.owned 2 T path)
      (fun a => t.elim 0 (fun T => pages 2 T a)) := by
  cases t with
  | some T => exact pageAt_tallies Leaf.owned 2 T
  | none =>
    constructor
    · intro q
      simp
    · intro q _ x y hx
      exact absurd hx (by simp)

/-- The places of the pages of one process: trapframe, table, image, arguments. -/
abbrev ProcPlace := ((Unit ⊕ List (Fin 512)) ⊕ List (Fin 512)) ⊕ ℕ

def procPageAt (pr : Proc) (t : Trees) : ProcPlace → Option ℕ :=
  Sum.elim (Sum.elim (Sum.elim (fun _ => pr.trapframe)
      (fun path => t.table.bind fun T => RadixTree.pageAt Leaf.owned 2 T path))
    (fun path => t.image.bind fun T => RadixTree.pageAt Leaf.owned 2 T path))
    (fun n => (argPages pr)[n]?)

theorem procHeld_tallies (pr : Proc) (t : Trees) : Tallies (procPageAt pr t) (procHeld pr t) :=
  (((Tallies.option pr.trapframe).sum (tree_tallies t.table)).sum (tree_tallies t.image)).sum
    (Tallies.list (argPages pr))

/-- The place in the sum of all kinds of places. -/
def Place.split : Place → ℕ ⊕ (((Fin NPROC × ProcPlace) ⊕ ℕ) ⊕ ℕ)
  | .free n => .inl n
  | .trapframe p => .inr (.inl (.inl (p, .inl (.inl (.inl ())))))
  | .table p false path => .inr (.inl (.inl (p, .inl (.inl (.inr path)))))
  | .table p true path => .inr (.inl (.inl (p, .inl (.inr path))))
  | .user p false vpn => .inr (.inl (.inl (p, .inl (.inl (.inr (keyPath px 2 (vpn*PGSIZE)))))))
  | .user p true vpn => .inr (.inl (.inl (p, .inl (.inr (keyPath px 2 (vpn*PGSIZE))))))
  | .arg p n => .inr (.inl (.inl (p, .inr n)))
  | .pipe q => .inr (.inl (.inr q))
  | .boot n => .inr (.inr n)

/-- The way back: three indices are a virtual page number. -/
def joinPlace : ℕ ⊕ (((Fin NPROC × ProcPlace) ⊕ ℕ) ⊕ ℕ) → Place
  | .inl n => .free n
  | .inr (.inl (.inl (p, .inl (.inl (.inl _))))) => .trapframe p
  | .inr (.inl (.inl (p, .inl (.inl (.inr path))))) =>
    if path.length ≤ 2 then .table p false path else .user p false (vpnOf path)
  | .inr (.inl (.inl (p, .inl (.inr path)))) =>
    if path.length ≤ 2 then .table p true path else .user p true (vpnOf path)
  | .inr (.inl (.inl (p, .inr n))) => .arg p n
  | .inr (.inl (.inr q)) => .pipe q
  | .inr (.inr n) => .boot n

/-- The places as `split` has them, with the page tables read off the trees. -/
def splitPageAt (k : Kernel) (tr : Fin NPROC → Trees) :
    ℕ ⊕ (((Fin NPROC × ProcPlace) ⊕ ℕ) ⊕ ℕ) → Option ℕ :=
  Sum.elim (fun n => k.phys.free[n]?) (Sum.elim (Sum.elim
    (fun x => procPageAt (k.proc x.1) (tr x.1) x.2)
    (fun q => if IsPipe k.file q then some q else none)) (fun n => k.boot[n]?))

theorem splitPageAt_pipe (k : Kernel) (tr : Fin NPROC → Trees) (q : ℕ) :
    splitPageAt k tr (.inr (.inl (.inr q))) = if IsPipe k.file q then some q else none := by
  rw [splitPageAt, Sum.elim_inr, Sum.elim_inl, Sum.elim_inr]

theorem split_tallies (k : Kernel) (tr : Fin NPROC → Trees) :
    Tallies (splitPageAt k tr) (fun a => k.phys.free.count a+held k tr a) :=
  (Tallies.list k.phys.free).sum (((Tallies.family fun p => procHeld_tallies (k.proc p) (tr p)).sum
    (Tallies.self (IsPipe k.file))).sum (Tallies.list k.boot))

section Places
variable {k : Kernel} {tr : Fin NPROC → Trees}

/-- The tree of an address space of process `p`. -/
def treeOf (t : Trees) (image : Bool) : Option (PageTree 2) := if image then t.image else t.table

theorem Pages.sized (h : Pages k tr) {p : Fin NPROC} {image : Bool} {q : ℕ}
    (hq : k.root p image = some q) : ∃ T, treeOf (tr p) image = some T ∧
      Space k.phys.mem q (k.size p image) T ∧ Holds k.phys (pages 2 T) := by
  have hholds := h.holds p
  cases image with
  | false =>
    have htable := (h.spaces p).table
    rw [show (k.proc p).pagetable = some q from hq] at htable
    obtain ⟨T,hT,hs⟩ := rel_some_left htable
    refine ⟨T, hT, hs, hholds.mono ?_⟩
    intro a
    simp only [procHeld, hT, Option.elim_some]
    omega
  | true =>
    have himage := (h.spaces p).image
    obtain ⟨img,himg,rfl⟩ := Option.map_eq_some_iff.mp hq
    rw [himg] at himage
    obtain ⟨T,hT,hs⟩ := rel_some_left himage
    refine ⟨T, hT, ?_, hholds.mono ?_⟩
    · rw [Kernel.size, himg]
      exact hs
    · intro a
      simp only [procHeld, hT, Option.elim_some]
      omega

theorem rel_some_right {α β : Type} {r : α → β → Prop} {x : Option α} {b : β}
    (h : Option.Rel r x (some b)) : ∃ a, r a b := by
  cases h with
  | some hab => exact ⟨_,hab⟩

section
variable (h : Pages k tr) {p : Fin NPROC} {image : Bool}
include h

theorem Pages.space_of_tree {T : PageTree 2}
    (hT : treeOf (tr p) image = some T) : ∃ q sz, Space k.phys.mem q sz T := by
  cases image with
  | false =>
    have htable := (h.spaces p).table
    rw [show (tr p).table = some T from hT] at htable
    obtain ⟨q,hs⟩ := rel_some_right htable
    exact ⟨q,_,hs⟩
  | true =>
    have himage := (h.spaces p).image
    rw [show (tr p).image = some T from hT] at himage
    obtain ⟨img,hs⟩ := rel_some_right himage
    exact ⟨img.pagetable,_,hs⟩

theorem Pages.no_space (hq : k.root p image = none) : treeOf (tr p) image = none := by
  cases image with
  | false =>
    have htable := (h.spaces p).table
    rw [show (k.proc p).pagetable = none from hq] at htable
    exact rel_none_left htable
  | true =>
    have himage := (h.spaces p).image
    rw [Option.map_eq_none_iff.mp hq] at himage
    exact rel_none_left himage

/-- The page tables in memory agree with the trees about every position. -/
theorem Pages.table_some (hlen : path.length ≤ 2) :
    ((k.root p image).bind fun q => follow Pte.ppn k.phys.mem q path) = some a ↔
      ((treeOf (tr p) image).bind fun T => RadixTree.pageAt Leaf.owned 2 T path) = some a := by
  cases hq : k.root p image with
  | none => rw [h.no_space hq]; rfl
  | some q =>
    obtain ⟨T,hT,hs,_⟩ := h.sized hq
    rw [hT, Option.bind_some, Option.bind_some, hs.table_iff hlen]

theorem Pages.user_some (hn : n < TFVPN) : ((k.root p image).bind fun q =>
        follow Pte.ppn k.phys.mem q (keyPath px 2 (n*PGSIZE))) = some a ↔
      ((treeOf (tr p) image).bind fun T =>
        RadixTree.pageAt Leaf.owned 2 T (keyPath px 2 (n*PGSIZE))) = some a := by
  cases hq : k.root p image with
  | none => rw [h.no_space hq]; rfl
  | some q =>
    obtain ⟨T,hT,hs,_⟩ := h.sized hq
    rw [hT, Option.bind_some, Option.bind_some, hs.user_iff hn]

end

theorem Pages.exists_place (h : Pages k tr) {p : Fin NPROC} (image : Bool)
    (ha : ((treeOf (tr p) image).bind fun T => RadixTree.pageAt Leaf.owned 2 T path) =
      some a) : ∃ x, k.pageAt x = some a := by
  obtain ⟨T,hT,hpos⟩ := Option.bind_eq_some_iff.mp ha
  obtain ⟨q,sz,hs⟩ := h.space_of_tree hT
  rcases hs.position hpos with hlen | ⟨n,hn,rfl⟩
  · refine ⟨.table p image path, ?_⟩
    rw [Kernel.pageAt, if_pos hlen, h.table_some hlen]
    exact ha
  · refine ⟨.user p image n, ?_⟩
    rw [Kernel.pageAt, if_pos hn, h.user_some hn]
    exact ha

theorem Pages.place_split (h : Pages k tr) (hx : k.pageAt x = some a) :
    splitPageAt k tr x.split = some a := by
  cases x with
  | table p image path =>
    rw [Kernel.pageAt] at hx
    split_ifs at hx with hlen
    rw [h.table_some hlen] at hx
    cases image <;> exact hx
  | user p image n =>
    rw [Kernel.pageAt] at hx
    split_ifs at hx with hn
    rw [h.user_some hn] at hx
    cases image <;> exact hx
  | pipe q =>
    rw [Place.split, splitPageAt_pipe]
    exact hx
  | _ => exact hx

theorem Pages.split_place (h : Pages k tr) (y : ℕ ⊕ (((Fin NPROC × ProcPlace) ⊕ ℕ) ⊕ ℕ))
    (hy : splitPageAt k tr y = some a) : ∃ x, k.pageAt x = some a := by
  rcases y with n | ((⟨p,((_ | path) | path) | n⟩ | q) | n)
  · exact ⟨.free n, hy⟩
  · exact ⟨.trapframe p, hy⟩
  · exact h.exists_place false hy
  · exact h.exists_place true hy
  · exact ⟨.arg p n, hy⟩
  · refine ⟨.pipe q, ?_⟩
    rw [splitPageAt_pipe] at hy
    exact hy
  · exact ⟨.boot n, hy⟩

theorem Kernel.join_split (hx : k.pageAt x = some a) : joinPlace x.split = x := by
  cases x with
  | table p image path =>
    rw [Kernel.pageAt] at hx
    split_ifs at hx with hlen
    cases image
    · exact if_pos hlen
    · exact if_pos hlen
  | user p image n =>
    rw [Kernel.pageAt] at hx
    split_ifs at hx with hn
    have hlong : ¬(keyPath px 2 (n*PGSIZE)).length ≤ 2 := by
      rw [show (keyPath px 2 (n*PGSIZE)).length = 3 from rfl]
      omega
    have hvpn := vpnOf_keyPath (hn.trans (show TFVPN < NVPN by decide))
    cases image
    · rw [Place.split, joinPlace, if_neg hlong, hvpn]
    · rw [Place.split, joinPlace, if_neg hlong, hvpn]
  | _ => rfl

theorem Pages.places (h : Pages k tr) :
    Tallies k.pageAt (fun a => k.phys.free.count a+held k tr a) :=
  (split_tallies k tr).rename Place.split (fun _ _ => h.place_split)
    (fun y _ => h.split_place y) (fun x y _ hx hy hsplit => by
      rw [← Kernel.join_split hx, ← Kernel.join_split hy, hsplit])

theorem Pages.one_place (h : Pages k tr) (ha : k.phys.endPage ≤ a ∧ a < PHYSPAGES) :
    ∃! x, k.pageAt x = some a := by
  apply h.places.exists_unique
  rw [h.exact, if_pos ha]

theorem Pages.place_alloc (h : Pages k tr) (hx : k.pageAt x = some a) :
    k.phys.endPage ≤ a ∧ a < PHYSPAGES := by
  have hpos := (h.places.exists_iff a).mpr ⟨x,hx⟩
  rw [h.exact] at hpos
  by_contra hno
  rw [if_neg hno] at hpos
  exact absurd hpos (Nat.lt_irrefl 0)

end Places
end Xv6
