import Xv6.PlaceCount

/-! Radix trees that live in numbered pages. An entry of a table is empty, or leads to a table of
the level below, and at level 0 to a value. `tally` counts how often a page occurs in a tree, as one
of its tables or as the page that a value owns. -/
namespace RadixTree
open PlaceCount Function

variable {ι α β κ E : Type}

structure Node (ι β : Type) where
  page : ℕ
  entry : ι → Option β

@[reducible] def Table (ι α : Type) : ℕ → Type
  | 0 => Node ι α
  | l+1 => Node ι (Table ι α l)

section Node
variable [DecidableEq ι]

def Node.set (n : Node ι β) (i : ι) (x : Option β) : Node ι β :=
  ⟨n.page, update n.entry i x⟩

theorem Node.set_same (n : Node ι β) (i : ι) (x : Option β) : (n.set i x).entry i = x :=
  update_self _ _ _

theorem Node.set_other (n : Node ι β) {i j : ι} (x : Option β) (h : j ≠ i) :
    (n.set i x).entry j = n.entry j :=
  update_of_ne h _ _

variable [Fintype ι]

/-- How often page `q` occurs below a node, itself included. -/
def nodeTally (f : β → ℕ → ℕ) (n : Node ι β) (q : ℕ) : ℕ :=
  (if n.page = q then 1 else 0)+∑ i, (n.entry i).elim 0 (fun b => f b q)

section
variable (f : β → ℕ → ℕ) (n : Node ι β)

theorem nodeTally_set (i : ι) (x : Option β) (q : ℕ) :
    nodeTally f (n.set i x) q+(n.entry i).elim 0 (fun b => f b q) =
      nodeTally f n q+x.elim 0 (fun b => f b q) := by
  have hsum : ∀ m : Node ι β, ∑ j, (m.entry j).elim 0 (fun b => f b q) =
      (m.entry i).elim 0 (fun b => f b q)+
        ∑ j ∈ Finset.univ.erase i, (m.entry j).elim 0 (fun b => f b q) := by
    intro m
    exact (Finset.add_sum_erase _ _ (Finset.mem_univ i)).symm
  have hrest : ∑ j ∈ Finset.univ.erase i, ((n.set i x).entry j).elim 0 (fun b => f b q) =
      ∑ j ∈ Finset.univ.erase i, (n.entry j).elim 0 (fun b => f b q) := by
    apply Finset.sum_congr rfl
    intro j hj
    rw [n.set_other x (Finset.ne_of_mem_erase hj)]
  have hpage : (n.set i x).page = n.page := rfl
  rw [nodeTally, nodeTally, hsum, n.set_same, hsum n, hpage]
  omega

omit [DecidableEq ι] in
theorem entry_le_nodeTally (i : ι) (q : ℕ) :
    (if n.page = q then 1 else 0)+(n.entry i).elim 0 (fun b => f b q) ≤ nodeTally f n q := by
  have hle := Finset.single_le_sum (f := fun j => (n.entry j).elim 0 (fun b => f b q))
    (fun _ _ => Nat.zero_le _) (Finset.mem_univ i)
  rw [nodeTally]
  omega

theorem two_entries_le_nodeTally {i j : ι} (hij : i ≠ j)
    (q : ℕ) : (n.entry i).elim 0 (fun b => f b q)+(n.entry j).elim 0 (fun b => f b q) ≤
      nodeTally f n q := by
  have hle := Finset.single_le_sum (f := fun k => (n.entry k).elim 0 (fun b => f b q))
    (s := Finset.univ.erase i) (fun _ _ => Nat.zero_le _)
    (Finset.mem_erase.mpr ⟨hij.symm,Finset.mem_univ j⟩)
  have hsum := Finset.add_sum_erase Finset.univ
    (fun k => (n.entry k).elim 0 (fun b => f b q)) (Finset.mem_univ i)
  rw [nodeTally]
  omega

omit [DecidableEq ι] in
/-- A page that occurs below a node is the node's own or occurs below an entry. -/
theorem exists_of_nodeTally (q : ℕ) (h : 0 < nodeTally f n q) :
    n.page = q ∨ ∃ i b, n.entry i = some b ∧ 0 < f b q := by
  by_cases hp : n.page = q
  · exact Or.inl hp
  · rw [nodeTally, if_neg hp, Nat.zero_add] at h
    obtain ⟨i,_,hi⟩ := Finset.exists_ne_zero_of_sum_ne_zero (Nat.pos_iff_ne_zero.mp h)
    cases hb : n.entry i with
    | none => rw [hb] at hi; exact absurd rfl hi
    | some b =>
      rw [hb] at hi
      exact Or.inr ⟨i, b, hb, Nat.pos_of_ne_zero hi⟩

end

end Node

def rootPage : (l : ℕ) → Table ι α l → ℕ
  | 0, (T : Node ι α) => T.page
  | _+1, (T : Node ι (Table ι α _)) => T.page

def emptyTable (q : ℕ) : (l : ℕ) → Table ι α l
  | 0 => (⟨q, fun _ => none⟩ : Node ι α)
  | l+1 => (⟨q, fun _ => none⟩ : Node ι (Table ι α l))

variable {k : κ} {l q : ℕ}

section Tree
variable (px : ℕ → κ → ι) (own : α → Option ℕ)

def lookup : (l : ℕ) → Table ι α l → κ → Option α
  | 0, (T : Node ι α), k => T.entry (px 0 k)
  | l+1, (T : Node ι (Table ι α l)), k => (T.entry (px (l+1) k)).bind fun t => lookup l t k

/-- The page of the level-0 table on the path of `k`. -/
def leafPage : (l : ℕ) → Table ι α l → κ → Option ℕ
  | 0, (T : Node ι α), _ => some T.page
  | l+1, (T : Node ι (Table ι α l)), k => (T.entry (px (l+1) k)).bind fun t => leafPage l t k

/-- Store `x` at key `k`, where the path of `k` exists. -/
def setLeaf [DecidableEq ι] : (l : ℕ) → Table ι α l → κ → Option α → Table ι α l
  | 0, (T : Node ι α), k, x => T.set (px 0 k) x
  | l+1, (T : Node ι (Table ι α l)), k, x =>
    T.set (px (l+1) k) ((T.entry (px (l+1) k)).map fun t => setLeaf l t k x)

def leafTally (a : α) (q : ℕ) : ℕ := if own a = some q then 1 else 0

/-- How often page `q` occurs in a tree: as a table, or owned by a value. -/
def tally [Fintype ι] : (l : ℕ) → Table ι α l → ℕ → ℕ
  | 0, (T : Node ι α) => nodeTally (leafTally own) T
  | l+1, (T : Node ι (Table ι α l)) => nodeTally (tally l) T

/-- The tree as it is stored: `mem q` are the entries of page `q`. -/
def Rep (link : ℕ → E) (enc : α → E) (mem : ℕ → ι → Option E) : (l : ℕ) → Table ι α l → Prop
  | 0, (T : Node ι α) => ∀ i, mem T.page i = (T.entry i).map enc
  | l+1, (T : Node ι (Table ι α l)) => ∀ i,
    mem T.page i = (T.entry i).map (fun t => link (rootPage l t)) ∧
      ∀ t, T.entry i = some t → Rep link enc mem l t

variable {px own}

theorem rootPage_empty (q l : ℕ) : rootPage l (emptyTable q l : Table ι α l) = q := by
  cases l <;> rfl

theorem lookup_empty (q l : ℕ) (k : κ) : lookup px l (emptyTable q l : Table ι α l) k = none := by
  cases l <;> rfl

theorem lookup_congr {T : Table ι α l} {k' : κ} (h : ∀ j, j ≤ l → px j k' = px j k) :
    lookup px l T k' = lookup px l T k := by
  induction l with
  | zero =>
    unfold lookup
    rw [h 0 (Nat.le_refl 0)]
  | succ l ih =>
    unfold lookup
    rw [h (l+1) (Nat.le_refl _)]
    cases Node.entry T (px (l+1) k) with
    | none => rfl
    | some t => exact ih (fun j hj => h j (by omega))

theorem lookup_of_leafPage_none {T : Table ι α l}
    (h : leafPage px l T k = none) : lookup px l T k = none := by
  induction l with
  | zero => exact absurd h (by simp [leafPage])
  | succ l ih =>
    unfold leafPage at h
    unfold lookup
    cases ht : Node.entry T (px (l+1) k) with
    | none => rfl
    | some t =>
      rw [ht] at h
      exact ih h

variable {link : ℕ → E} {enc : α → E} {mem mem' : ℕ → ι → Option E}

/-- What the level-0 table of `k` holds is the encoding of what the tree has at `k`. -/
theorem Rep.leaf {T : Table ι α l} (h : Rep link enc mem l T)
    (hq : leafPage px l T k = some q) : mem q (px 0 k) = (lookup px l T k).map enc := by
  induction l with
  | zero =>
    have hpage : Node.page T = q := Option.some.inj hq
    rw [← hpage]
    exact h (px 0 k)
  | succ l ih =>
    unfold leafPage at hq
    unfold lookup
    cases ht : Node.entry T (px (l+1) k) with
    | none =>
      rw [ht] at hq
      exact absurd hq (by simp)
    | some t =>
      rw [ht] at hq
      exact ih ((h _).2 t ht) hq

theorem rootPage_setLeaf [DecidableEq ι] (l : ℕ) (T : Table ι α l) (k : κ) (x : Option α) :
    rootPage l (setLeaf px l T k x) = rootPage l T := by
  cases l <;> rfl

theorem leafPage_setLeaf [DecidableEq ι] (l : ℕ) (T : Table ι α l) (k k' : κ) (x : Option α) :
    leafPage px l (setLeaf px l T k x) k' = leafPage px l T k' := by
  induction l with
  | zero => rfl
  | succ l ih =>
    unfold leafPage setLeaf
    by_cases hk : px (l+1) k' = px (l+1) k
    · rw [hk, Node.set_same]
      cases ht : Node.entry T (px (l+1) k) with
      | none => rfl
      | some t => exact ih t
    · rw [Node.set_other _ _ hk]

theorem lookup_setLeaf [DecidableEq ι] {T : Table ι α l}
    (hpath : leafPage px l T k ≠ none) (k' : κ) (x : Option α) :
    lookup px l (setLeaf px l T k x) k' =
      if ∀ j, j ≤ l → px j k' = px j k then x else lookup px l T k' := by
  induction l with
  | zero =>
    unfold lookup setLeaf
    by_cases hk : px 0 k' = px 0 k
    · rw [hk, Node.set_same, if_pos]
      intro j hj
      rw [Nat.le_zero.mp hj, hk]
    · rw [Node.set_other _ _ hk, if_neg]
      exact fun hall => hk (hall 0 (Nat.le_refl 0))
  | succ l ih =>
    unfold lookup setLeaf
    unfold leafPage at hpath
    by_cases hk : px (l+1) k' = px (l+1) k
    · rw [hk, Node.set_same]
      cases ht : Node.entry T (px (l+1) k) with
      | none =>
        rw [ht] at hpath
        exact absurd rfl hpath
      | some t =>
        rw [ht] at hpath
        have hiff : (∀ j, j ≤ l → px j k' = px j k) ↔ ∀ j, j ≤ l+1 → px j k' = px j k := by
          constructor
          · intro hall j hj
            rcases Nat.lt_or_ge j (l+1) with hlt | hge
            · exact hall j (by omega)
            · rw [show j = l+1 by omega, hk]
          · exact fun hall j hj => hall j (by omega)
        simp only [Option.map_some, Option.bind_some, ih hpath, hiff]
    · rw [Node.set_other _ _ hk, if_neg]
      exact fun hall => hk (hall (l+1) (Nat.le_refl _))

section Fintype
variable [Fintype ι]

theorem tally_empty (q l a : ℕ) :
    tally own l (emptyTable q l : Table ι α l) a = if q = a then 1 else 0 := by
  cases l with
  | zero | succ =>
    simp only [tally, nodeTally, emptyTable, Option.elim_none, Finset.sum_const_zero]; rfl

theorem tally_rootPage (own : α → Option ℕ) (l : ℕ) (T : Table ι α l) : 0 < tally own l T (rootPage l T) := by
  cases l <;> simp [tally, nodeTally, rootPage]

section
variable [DecidableEq ι]

omit [DecidableEq ι] in
theorem tally_child (own : α → Option ℕ) (T : Node ι (Table ι α l)) {i : ι} {t : Table ι α l}
    (ht : T.entry i = some t) (q : ℕ) :
    (if T.page = q then 1 else 0)+tally own l t q ≤ tally own (l+1) T q := by
  have hle := entry_le_nodeTally (tally own l) T i q
  rwa [ht] at hle

omit [DecidableEq ι] in
theorem leafPage_tally {T : Table ι α l}
    (h : leafPage px l T k = some q) : 0 < tally own l T q := by
  induction l with
  | zero =>
    have hq : Node.page T = q := Option.some.inj h
    have hpos := tally_rootPage own 0 T
    rwa [← hq]
  | succ l ih =>
    unfold leafPage at h
    cases ht : Node.entry T (px (l+1) k) with
    | none =>
      rw [ht] at h
      exact absurd h (by simp)
    | some t =>
      rw [ht] at h
      have hle := tally_child own T ht q
      have hpos := ih h
      omega

omit [DecidableEq ι] in
theorem Rep.congr (own : α → Option ℕ) {T : Table ι α l} (h : Rep link enc mem l T)
    (hsame : ∀ q, 0 < tally own l T q → mem' q = mem q) : Rep link enc mem' l T := by
  induction l with
  | zero =>
    intro i
    rw [show mem' (Node.page T) = mem (Node.page T) from hsame _ (tally_rootPage own 0 T)]
    exact h i
  | succ l ih =>
    intro i
    have hroot := hsame _ (tally_rootPage own (l+1) T)
    rw [show mem' (Node.page T) = mem (Node.page T) from hroot]
    refine ⟨(h i).1, fun t ht => ih ((h i).2 t ht) ?_⟩
    intro q hq
    have hle := tally_child own T ht q
    exact hsame q (by omega)

theorem tally_setLeaf {T : Table ι α l} (hpath : leafPage px l T k ≠ none) (x : Option α) (q : ℕ) :
    tally own l (setLeaf px l T k x) q+(lookup px l T k).elim 0 (fun a => leafTally own a q) =
      tally own l T q+x.elim 0 (fun a => leafTally own a q) := by
  induction l with
  | zero => exact nodeTally_set (leafTally own) T (px 0 k) x q
  | succ l ih =>
    unfold leafPage at hpath
    cases ht : Node.entry T (px (l+1) k) with
    | none =>
      rw [ht] at hpath
      exact absurd rfl hpath
    | some t =>
      rw [ht] at hpath
      have hset := nodeTally_set (tally own l) T (px (l+1) k) (some (setLeaf px l t k x)) q
      have hchild := ih hpath
      rw [ht] at hset
      simp only [Option.elim_some] at hset
      unfold tally setLeaf lookup
      simp only [ht, Option.map_some, Option.bind_some]
      omega

/-- Storing one entry of the level-0 table stores one value of the tree. -/
theorem Rep.setLeaf {T : Table ι α l} (h : Rep link enc mem l T) (hq : leafPage px l T k = some q)
    (hone : ∀ a, tally own l T a ≤ 1) (x : Option α) :
    Rep link enc (update mem q (update (mem q) (px 0 k) (x.map enc))) l (setLeaf px l T k x) := by
  induction l with
  | zero =>
    have hpage : Node.page T = q := Option.some.inj hq
    intro i
    change update mem q _ (Node.page T) i = ((Node.set T (px 0 k) x).entry i).map enc
    rw [hpage, update_self]
    by_cases hi : i = px 0 k
    · rw [hi, update_self, Node.set_same]
    · rw [update_of_ne hi, Node.set_other _ _ hi, ← hpage]
      exact h i
  | succ l ih =>
    unfold leafPage at hq
    cases ht : Node.entry T (px (l+1) k) with
    | none =>
      rw [ht] at hq
      exact absurd hq (by simp)
    | some t =>
      rw [ht] at hq
      have hqt : 0 < tally own l t q := leafPage_tally hq
      have hchild := tally_child own T ht
      -- the level-0 table is not the table we are in, nor in a sibling
      have hroot : Node.page T ≠ q := by
        intro he
        have := hchild q
        have := hone q
        rw [if_pos he] at *
        omega
      intro i
      change update mem q _ (Node.page T) i = _ ∧ _
      rw [update_of_ne hroot]
      by_cases hi : i = px (l+1) k
      · rw [hi]
        unfold RadixTree.setLeaf
        rw [Node.set_same, ht, Option.map_some, Option.map_some, rootPage_setLeaf]
        refine ⟨by rw [(h _).1, ht, Option.map_some], ?_⟩
        intro t' ht'
        rw [← Option.some.inj ht']
        apply ih ((h _).2 t ht) hq
        intro a
        have := hchild a
        have := hone a
        omega
      · unfold RadixTree.setLeaf
        rw [Node.set_other _ _ hi]
        refine ⟨(h i).1, fun t' ht' => ((h i).2 t' ht').congr own ?_⟩
        intro a ha
        apply update_of_ne
        rintro rfl
        have htwo := two_entries_le_nodeTally (tally own l) T (Ne.symm hi) a
        have := hone a
        rw [ht, ht', Option.elim_some, Option.elim_some] at htwo
        change nodeTally (tally own l) T a ≤ 1 at this
        omega

end

end Fintype

def NoLeaf : (l : ℕ) → Table ι α l → Prop
  | 0, (T : Node ι α) => ∀ i, T.entry i = none
  | l+1, (T : Node ι (Table ι α l)) => ∀ i t, T.entry i = some t → NoLeaf l t

/-- When every sequence of digits belongs to some key, a tree without values at any key has
no values at all. -/
theorem noLeaf_of_lookup (hdigit : ∀ l i k, ∃ k', px l k' = i ∧ ∀ j, j < l → px j k' = px j k)
    {T : Table ι α l} [Nonempty κ] (h : ∀ k, lookup px l T k = none) : NoLeaf l T := by
  induction l with
  | zero =>
    intro i
    obtain ⟨k,hk,_⟩ := hdigit 0 i (Classical.arbitrary κ)
    rw [← hk]
    exact h k
  | succ l ih =>
    intro i t ht
    apply ih
    intro k
    obtain ⟨k',hk',hlow⟩ := hdigit (l+1) i k
    have hnone := h k'
    unfold lookup at hnone
    rw [hk', ht] at hnone
    rw [← lookup_congr (fun j hj => hlow j (by omega))]
    exact hnone

section Position

/-- The page at the end of a path of digits. -/
def nodeAt (f : β → List ι → Option ℕ) (n : Node ι β) : List ι → Option ℕ
  | [] => some n.page
  | i :: path => (n.entry i).bind fun b => f b path

def leafAt (own : α → Option ℕ) (a : α) : List ι → Option ℕ
  | [] => own a
  | _ :: _ => none

/-- The page at a position of the tree: of a table, or owned by a value. -/
def pageAt (own : α → Option ℕ) : (l : ℕ) → Table ι α l → List ι → Option ℕ
  | 0, (T : Node ι α) => nodeAt (leafAt own) T
  | l+1, (T : Node ι (Table ι α l)) => nodeAt (pageAt own l) T

theorem leafAt_tallies (own : α → Option ℕ) (a : α) :
    Tallies (leafAt own a : List ι → Option ℕ) (leafTally own a) := by
  constructor
  · intro q
    constructor
    · intro h
      refine ⟨[], ?_⟩
      by_contra hne
      simp [leafTally, show own a ≠ some q from hne] at h
    · rintro ⟨path,h⟩
      cases path with
      | nil => simp [leafTally, show own a = some q from h]
      | cons i path => exact absurd h (by simp [leafAt])
  · intro q _ p p' hp hp'
    cases p with
    | cons i p => exact absurd hp (by simp [leafAt])
    | nil =>
      cases p' with
      | cons i p' => exact absurd hp' (by simp [leafAt])
      | nil => rfl

theorem nodeAt_tallies [DecidableEq ι] [Fintype ι] {f : β → List ι → Option ℕ} {t : β → ℕ → ℕ}
    (h : ∀ b, Tallies (f b) (t b)) (n : Node ι β) : Tallies (nodeAt f n) (nodeTally t n) := by
  -- a page found below an entry is counted there
  have hentry : ∀ (i : ι) (path : List ι) (q : ℕ), nodeAt f n (i :: path) = some q →
      ∃ b, n.entry i = some b ∧ f b path = some q ∧ 0 < t b q := by
    intro i path q hq
    obtain ⟨b,hb,hf⟩ := Option.bind_eq_some_iff.mp hq
    exact ⟨b, hb, hf, ((h b).exists_iff q).mpr ⟨path,hf⟩⟩
  constructor
  · intro q
    constructor
    · intro hpos
      rcases exists_of_nodeTally t n q hpos with hp | ⟨i,b,hb,hbq⟩
      · exact ⟨[], congrArg some hp⟩
      · obtain ⟨path,hf⟩ := ((h b).exists_iff q).mp hbq
        exact ⟨i :: path, by rw [nodeAt, hb]; exact hf⟩
    · rintro ⟨path,hq⟩
      cases path with
      | nil =>
        have hp : n.page = q := Option.some.inj hq
        rw [nodeTally, if_pos hp]
        omega
      | cons i path =>
        obtain ⟨b,hb,_,hpos⟩ := hentry i path q hq
        have hle := entry_le_nodeTally t n i q
        rw [hb, Option.elim_some] at hle
        omega
  · intro q hone p p' hp hp'
    have hboth : ∀ (i : ι) (path : List ι), nodeAt f n [] = some q →
        nodeAt f n (i :: path) = some q → False := by
      intro i path hnil hcons
      obtain ⟨b,hb,_,hpos⟩ := hentry i path q hcons
      have hle := entry_le_nodeTally t n i q
      rw [hb, Option.elim_some, if_pos (Option.some.inj hnil)] at hle
      omega
    cases p with
    | nil =>
      cases p' with
      | nil => rfl
      | cons i path => exact (hboth i path hp hp').elim
    | cons i path =>
      cases p' with
      | nil => exact (hboth i path hp' hp).elim
      | cons i' path' =>
        obtain ⟨b,hb,hf,hpos⟩ := hentry i path q hp
        obtain ⟨b',hb',hf',hpos'⟩ := hentry i' path' q hp'
        have hii : i = i' := by
          by_contra hne
          have htwo := two_entries_le_nodeTally t n hne q
          rw [hb, hb', Option.elim_some, Option.elim_some] at htwo
          omega
        subst hii
        obtain rfl : b = b' := Option.some.inj (hb.symm.trans hb')
        have hle := entry_le_nodeTally t n i q
        rw [hb, Option.elim_some] at hle
        rw [(h b).unique q (by omega) path path' hf hf']

/-- The path to the value for a key. -/
def keyPath (px : ℕ → κ → ι) : ℕ → κ → List ι
  | 0, k => [px 0 k]
  | l+1, k => px (l+1) k :: keyPath px l k

theorem pageAt_keyPath (own : α → Option ℕ) (l : ℕ) (T : Table ι α l) (k : κ) :
    pageAt own l T (keyPath px l k) = (lookup px l T k).bind own := by
  induction l with
  | zero =>
    rfl
  | succ l ih =>
    change (Node.entry T (px (l+1) k)).bind (fun t => pageAt own l t (keyPath px l k)) =
      ((Node.entry T (px (l+1) k)).bind fun t => lookup px l t k).bind own
    cases Node.entry T (px (l+1) k) with
    | none => rfl
    | some t => exact ih t

theorem keyPath_inj {k' : κ} (h : keyPath px l k = keyPath px l k') (j : ℕ)
    (hj : j ≤ l) : px j k = px j k' := by
  induction l with
  | zero =>
    obtain rfl : j = 0 := by omega
    exact List.head_eq_of_cons_eq h
  | succ l ih =>
    rcases Nat.lt_or_eq_of_le hj with hlt | rfl
    · exact ih (List.tail_eq_of_cons_eq h) (by omega)
    · exact List.head_eq_of_cons_eq h

theorem pageAt_long (own : α → Option ℕ) (T : Table ι α l) {path : List ι}
    (h : l+1 < path.length) : pageAt own l T path = none := by
  induction l generalizing path with
  | zero =>
    obtain _ | ⟨i, _ | ⟨j,path⟩⟩ := path
    · simp at h
    · simp at h
    · change (Node.entry T i).bind (fun a => leafAt own a (j :: path)) = none
      cases Node.entry T i <;> rfl
  | succ l ih =>
    cases path with
    | nil => simp at h
    | cons i path =>
      change (Node.entry T i).bind (fun t => pageAt own l t path) = none
      cases Node.entry T i with
      | none => rfl
      | some t => exact ih t (by rw [List.length_cons] at h; omega)

/-- The page that entries lead to, read from memory; `dec` takes the page from an entry. -/
def follow (dec : E → ℕ) (mem : ℕ → ι → Option E) : ℕ → List ι → Option ℕ
  | q, [] => some q
  | q, i :: path => (mem q i).bind fun e => follow dec mem (dec e) path

theorem Rep.follow_table {dec : E → ℕ} (own : α → Option ℕ) (hdec : ∀ q, dec (link q) = q)
    {T : Table ι α l} (h : Rep link enc mem l T) {path : List ι} (hpath : path.length ≤ l) :
    follow dec mem (rootPage l T) path = pageAt own l T path := by
  induction l generalizing path with
  | zero =>
    obtain rfl : path = [] := List.length_eq_zero_iff.mp (by omega)
    rfl
  | succ l ih =>
    cases path with
    | nil => rfl
    | cons i path =>
      change (mem (rootPage (l+1) T) i).bind _ = (Node.entry T i).bind _
      have hentry := (h i).1
      change mem (rootPage (l+1) T) i = _ at hentry
      rw [hentry]
      cases ht : Node.entry T i with
      | none => rfl
      | some t =>
        rw [Option.map_some, Option.bind_some, hdec]
        exact ih ((h i).2 t ht) (by rw [List.length_cons] at hpath; omega)

theorem Rep.follow_key {dec : E → ℕ} (hdec : ∀ q, dec (link q) = q) {T : Table ι α l}
    (h : Rep link enc mem l T) (k : κ) : follow dec mem (rootPage l T) (keyPath px l k) =
      (lookup px l T k).map fun a => dec (enc a) := by
  induction l with
  | zero =>
    change (mem (rootPage 0 T) (px 0 k)).bind (fun e => some (dec e)) = (Node.entry T (px 0 k)).map _
    have hentry := h (px 0 k)
    change mem (rootPage 0 T) _ = _ at hentry
    rw [hentry]
    cases Node.entry T (px 0 k) <;> rfl
  | succ l ih =>
    change (mem (rootPage (l+1) T) (px (l+1) k)).bind _ =
      ((Node.entry T (px (l+1) k)).bind fun t => lookup px l t k).map _
    have hentry := (h (px (l+1) k)).1
    change mem (rootPage (l+1) T) _ = _ at hentry
    rw [hentry]
    cases ht : Node.entry T (px (l+1) k) with
    | none => rfl
    | some t =>
      rw [Option.map_some, Option.bind_some, hdec]
      exact ih ((h _).2 t ht)

theorem pageAt_tallies [DecidableEq ι] [Fintype ι] (own : α → Option ℕ) (l : ℕ)
    (T : Table ι α l) : Tallies (pageAt own l T) (tally own l T) := by
  induction l with
  | zero => exact nodeAt_tallies (leafAt_tallies own) T
  | succ l ih => exact nodeAt_tallies ih T

end Position
end Tree
end RadixTree
