import Xv6.PageTable
import Xv6.RadixTree

/-! Page tables as radix trees: `walk` finds, or makes, the path of an address, and leaves every
translation as it was. -/
namespace Xv6
open StateOutcome RadixTree Function

/-- A leaf of a user page table. `own` says whether the page belongs to the table: the
trampoline and the trapframe are mapped without being owned. -/
structure Leaf where
  ppn : ℕ
  w : Bool
  x : Bool
  u : Bool
  own : Bool

def Leaf.pte (a : Leaf) : Pte := ⟨a.ppn, ⟨true, a.w, a.x, a.u⟩⟩

def Leaf.owned (a : Leaf) : Option ℕ := if a.own then some a.ppn else none

abbrev PageTree := Table (Fin 512) Leaf

/-- The pages of a tree: its tables and the pages its leaves own. -/
def pages (l : ℕ) (T : PageTree l) : ℕ → ℕ := tally Leaf.owned l T

/-- The tree as it is stored in memory. -/
abbrev Maps (mem : ℕ → Page) (l : ℕ) (T : PageTree l) : Prop := Rep tablePte Leaf.pte mem l T

theorem pages_root (l : ℕ) (T : PageTree l) : 0 < pages l T (rootPage l T) :=
  tally_rootPage Leaf.owned l T

theorem pages_empty (q l a : ℕ) : pages l (emptyTable q l) a = if q = a then 1 else 0 :=
  tally_empty q l a

variable {l : ℕ} {mem : ℕ → Page}

theorem pages_child {T : Node (Fin 512) (PageTree l)} {i : Fin 512} {t : PageTree l}
    (ht : T.entry i = some t) (a : ℕ) :
    (if T.page = a then 1 else 0)+pages l t a ≤ pages (l+1) T a :=
  tally_child Leaf.owned T ht a

theorem pages_siblings {T : Node (Fin 512) (PageTree l)} {i j : Fin 512}
    {t s : PageTree l} (ht : T.entry i = some t) (hs : T.entry j = some s) (hij : i ≠ j)
    (a : ℕ) : pages l t a+pages l s a ≤ pages (l+1) T a := by
  have htwo := two_entries_le_nodeTally (pages l) T hij a
  rwa [ht, hs] at htwo

theorem Maps.congr {T : PageTree l} {mem' : ℕ → Page} (h : Maps mem l T)
    (hsame : ∀ a, 0 < pages l T a → mem' a = mem a) : Maps mem' l T :=
  Rep.congr Leaf.owned h hsame

theorem Maps.empty {q : ℕ} (h : mem q = zeroPage) :
    Maps mem l (emptyTable q l) := by
  cases l with
  | zero =>
    intro i
    change mem q i = none
    rw [h]
    rfl
  | succ l =>
    intro i
    change mem q i = none ∧ ∀ t, none = some t → _
    rw [h]
    exact ⟨rfl, fun _ hn => absurd hn (by simp)⟩

theorem walkLoop_read {T : PageTree l} {ph : Phys} (va : ℕ) (h : Maps ph.mem l T) :
    post (walkLoop va false l (rootPage l T)) ph (fun r ph' => ph' = ph ∧
      r = (leafPage px l T va).map fun q => (q, px 0 va)) never := by
  induction l with
  | zero => exact ⟨rfl,rfl⟩
  | succ l ih =>
    have hentry := (h (px (l+1) va)).1
    unfold walkLoop
    rw [post_bind, post_get]
    change ph.mem (rootPage (l+1) T) _ = _ at hentry
    rw [hentry]
    unfold leafPage
    cases ht : Node.entry T (px (l+1) va) with
    | none => exact ⟨rfl,rfl⟩
    | some t => exact ih ((h _).2 t ht)

section Descend
variable {l : ℕ} {T : Node (Fin 512) (PageTree l)} {i : Fin 512} {t t' : PageTree l} {ph ph' : Phys}

theorem pages_set (x : Option (PageTree l)) (a : ℕ) :
    pages (l+1) (T.set i x) a+(T.entry i).elim 0 (fun t => pages l t a) =
      pages (l+1) T a+x.elim 0 (fun t => pages l t a) :=
  nodeTally_set (pages l) T i x a

theorem lookup_set (x : Option (PageTree l)) (k : ℕ) : lookup px (l+1) (T.set i x) k =
      if px (l+1) k = i then x.bind (fun t => lookup px l t k) else lookup px (l+1) T k := by
  change (Node.entry (T.set i x) (px (l+1) k)).bind _ = if _ then _ else (T.entry _).bind _
  split_ifs with hk
  · rw [hk, T.set_same]
  · rw [T.set_other _ hk]

theorem Maps.descend (hm : Maps ph.mem (l+1) T) (hh : Holds ph (pages (l+1) T))
    (ht : T.entry i = some t) (hroot : rootPage l t' = rootPage l t) (hm' : Maps ph'.mem l t')
    (hmove : Moves ph ph' (pages l t) (pages l t')) :
    Maps ph'.mem (l+1) (T.set i (some t')) ∧
      Moves ph ph' (pages (l+1) T) (pages (l+1) (T.set i (some t'))) := by
  have hchild := pages_child ht
  have hset : ∀ a, pages (l+1) (T.set i (some t')) a+pages l t a =
      pages (l+1) T a+pages l t' a := by
    intro a
    have := pages_set (T := T) (i := i) (some t') a
    rwa [ht, Option.elim_some, Option.elim_some] at this
  have hpage : ph'.mem T.page = ph.mem T.page := by
    apply hmove.outside
    have := hh.once T.page
    have := hchild T.page
    rw [if_pos rfl] at this
    omega
  refine ⟨?_, ?_, ?_, hmove.endPage⟩
  · intro j
    change ph'.mem T.page j = _ ∧ _
    rw [hpage]
    by_cases hj : j = i
    · rw [hj, T.set_same]
      refine ⟨?_, ?_⟩
      · rw [(hm i).1, ht, Option.map_some, Option.map_some, hroot]
      · intro s hs
        rwa [← Option.some.inj hs]
    · rw [T.set_other _ hj]
      refine ⟨(hm j).1, fun s hs => Maps.congr ((hm j).2 s hs) ?_⟩
      intro a ha
      apply hmove.outside
      have := pages_siblings ht hs (Ne.symm hj) a
      have := hh.once a
      omega
  · intro a
    have := hmove.count a
    have := hset a
    omega
  · intro a ha
    apply hmove.outside
    have := hchild a
    omega

theorem Maps.newTable {q : ℕ} (hm : Maps ph.mem (l+1) T) (hh : Holds ph (pages (l+1) T))
    (hnone : T.entry i = none) (hend : ph'.endPage = ph.endPage)
    (hfree : ph.free = q :: ph'.free)
    (hmem : ph'.mem = update (update ph.mem q zeroPage) T.page
      (update (ph.mem T.page) i (some (tablePte q)))) :
    Maps ph'.mem (l+1) (T.set i (some (emptyTable q l))) ∧
      Moves ph ph' (pages (l+1) T) (pages (l+1) (T.set i (some (emptyTable q l)))) := by
  have hcount : ∀ a, ph.free.count a = ph'.free.count a+(if q = a then 1 else 0) := by
    intro a
    rw [hfree, List.count_cons]
    simp only [beq_iff_eq]
  have hset : ∀ a, pages (l+1) (T.set i (some (emptyTable q l))) a =
      pages (l+1) T a+(if q = a then 1 else 0) := by
    intro a
    have := pages_set (T := T) (i := i) (some (emptyTable q l)) a
    rw [hnone, Option.elim_none, Option.elim_some, pages_empty] at this
    omega
  have hq : ∀ a, 0 < pages (l+1) T a → a ≠ q := by
    rintro a ha rfl
    have := hh.once a
    have := hcount a
    rw [if_pos rfl] at this
    omega
  have hroot : 0 < pages (l+1) T T.page := pages_root (l+1) T
  refine ⟨?_, ?_, ?_, hend⟩
  · intro j
    change ph'.mem T.page j = _ ∧ _
    rw [hmem, update_self]
    by_cases hj : j = i
    · rw [hj, update_self, T.set_same]
      refine ⟨by rw [Option.map_some, rootPage_empty], ?_⟩
      intro s hs
      rw [← Option.some.inj hs]
      apply Maps.empty
      rw [update_of_ne (hq _ hroot).symm, update_self]
    · rw [update_of_ne hj, T.set_other _ hj]
      refine ⟨(hm j).1, fun s hs => Maps.congr ((hm j).2 s hs) ?_⟩
      intro a ha
      have hle := pages_child hs a
      have hpos : 0 < pages (l+1) T a := by omega
      have hne : a ≠ T.page := by
        rintro rfl
        have := hh.once T.page
        rw [if_pos rfl] at hle
        omega
      rw [update_of_ne hne, update_of_ne (hq a hpos)]
  · intro a
    have := hcount a
    have := hset a
    omega
  · intro a ha
    have := hcount a
    have hne : a ≠ q := by
      rintro rfl
      rw [if_pos rfl] at this
      omega
    have hroot' : a ≠ T.page := by
      rintro rfl
      omega
    rw [hmem, update_of_ne hroot', update_of_ne hne]

end Descend

/-- `walk` with `alloc` set: the path exists afterwards unless memory ran out, no translation
has changed, and every page taken from the free list is a table of the tree. -/
theorem walkLoop_alloc {T : PageTree l} {ph : Phys} (va : ℕ) (hm : Maps ph.mem l T)
    (hh : Holds ph (pages l T)) :
    post (walkLoop va true l (rootPage l T)) ph (fun r ph' => ∃ T' : PageTree l,
      rootPage l T' = rootPage l T ∧ Maps ph'.mem l T' ∧
      (∀ k, lookup px l T' k = lookup px l T k) ∧ Moves ph ph' (pages l T) (pages l T') ∧
      ph'.free.length ≤ ph.free.length ∧
      ∀ s, r = some s → ∃ q, s = (q, px 0 va) ∧ leafPage px l T' va = some q)
      never := by
  induction l generalizing ph with
  | zero =>
    refine ⟨T, rfl, hm, fun _ => rfl, Moves.refl _ _, Nat.le_refl _, ?_⟩
    intro s hs
    exact ⟨Node.page T, (Option.some.inj hs).symm, rfl⟩
  | succ l ih =>
    -- the rest of the walk below an entry that leads to `t`
    have hbelow : ∀ (T1 : Node (Fin 512) (PageTree l)) (t : PageTree l) (ph1 : Phys),
        T1.page = Node.page T → T1.entry (px (l+1) va) = some t →
        (∀ k, lookup px (l+1) T1 k = lookup px (l+1) T k) → Maps ph1.mem (l+1) T1 →
        Moves ph ph1 (pages (l+1) T) (pages (l+1) T1) →
        ph1.free.length ≤ ph.free.length →
        post (walkLoop va true l (rootPage l t)) ph1 (fun r ph' => ∃ T' : PageTree (l+1),
          rootPage (l+1) T' = rootPage (l+1) T ∧ Maps ph'.mem (l+1) T' ∧
          (∀ k, lookup px (l+1) T' k = lookup px (l+1) T k) ∧
          Moves ph ph' (pages (l+1) T) (pages (l+1) T') ∧ ph'.free.length ≤ ph.free.length ∧
          ∀ s, r = some s → ∃ q, s = (q, px 0 va) ∧ leafPage px (l+1) T' va = some q)
          never := by
      intro T1 t ph1 hpage ht hlook hm1 hmove1 hlen1
      have hh1 := hmove1.holds hh
      have hht : Holds ph1 (pages l t) := hh1.mono (fun a => by
        have := pages_child ht a
        omega)
      apply post_imp (ih ((hm1 _).2 t ht) hht)
      rintro r ph' ⟨t',hroot',hm',hlook',hmove',hlen',hres'⟩
      obtain ⟨hmT,hmoveT⟩ := hm1.descend hh1 ht hroot' hm' hmove'
      refine ⟨T1.set (px (l+1) va) (some t'), hpage, hmT, ?_, hmove1.trans hmoveT,
        hlen'.trans hlen1, ?_⟩
      · intro k
        rw [lookup_set, ← hlook k]
        split_ifs with hk
        · rw [Option.bind_some, hlook' k]
          change _ = (T1.entry (px (l+1) k)).bind _
          rw [hk, ht, Option.bind_some]
        · rfl
      · intro s hs
        obtain ⟨q,hq,hleaf⟩ := hres' s hs
        refine ⟨q, hq, ?_⟩
        change (Node.entry (T1.set _ _) (px (l+1) va)).bind _ = _
        rw [T1.set_same, Option.bind_some, hleaf]
    have hentry := (hm (px (l+1) va)).1
    change ph.mem (rootPage (l+1) T) _ = _ at hentry
    unfold walkLoop
    rw [post_bind, post_get, hentry]
    cases ht : Node.entry T (px (l+1) va) with
    | some t =>
      exact hbelow T t ph rfl ht (fun _ => rfl) hm (Moves.refl _ _) (Nat.le_refl _)
    | none =>
      apply post_bind_of (kalloc_post ph)
      intro r ph1 hk
      cases r with
      | none =>
        refine ⟨T, rfl, hk.2.1 ▸ hm, fun _ => rfl, Moves.same hk.1 hk.2 _, by rw [hk.2.2], by simp⟩
      | some q =>
        obtain ⟨hend,hmem,hfree⟩ := hk
        have hne : Node.page T ≠ q := by
          intro he
          have honce := hh.once q
          have hroot := pages_root (l+1) T
          rw [hfree, List.count_cons_self] at honce
          change 0 < pages (l+1) T (Node.page T) at hroot
          rw [he] at hroot
          omega
        obtain ⟨ph2,hph2⟩ : ∃ ph2 : Phys, ph2 = { ph1 with
          mem := update (update ph1.mem q zeroPage) (Node.page T)
            (update (update ph1.mem q zeroPage (Node.page T)) (px (l+1) va)
              (some (tablePte q))) } := ⟨_,rfl⟩
        have hmem2 : ph2.mem = update (update ph.mem q zeroPage) (Node.page T)
            (update (ph.mem (Node.page T)) (px (l+1) va) (some (tablePte q))) := by
          rw [hph2, hmem, update_idem, update_of_ne hne]
        have hfree2 : ph.free = q :: ph2.free := by rw [hph2, hfree]
        obtain ⟨hm2,hmove2⟩ := hm.newTable hh ht (by rw [hph2, hend]) hfree2 hmem2
        have hrun := hbelow (Node.set T (px (l+1) va) (some (emptyTable q l))) (emptyTable q l)
          ph2 rfl (Node.set_same _ _ _) (fun k => ?_) hm2 hmove2 (by rw [hfree2]; simp)
        · rw [rootPage_empty, hph2] at hrun
          exact hrun
        · rw [lookup_set]
          split_ifs with hk
          · rw [Option.bind_some, lookup_empty]
            change none = (Node.entry T (px (l+1) k)).bind _
            rw [hk, ht, Option.bind_none]
          · rfl

end Xv6
