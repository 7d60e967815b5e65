import Mathlib.Data.List.Chain
import Mathlib.Data.List.Nodup

/-! Doubly linked lists that a head closes to a ring. The head is `none`, the other nodes are `some
a`. -/
namespace Xv6

open Function

structure Links (α : Type) where
  prev : Option α → Option α
  next : Option α → Option α

variable {α : Type} {l : Links α} {xs as cs : List α} {b : α} {x y : Option α}
  {ns : List (Option α)}

namespace Links

section Changes
variable [DecidableEq α]

def setPrev (l : Links α) (x y : Option α) : Links α := { l with prev := update l.prev x y }

def setNext (l : Links α) (x y : Option α) : Links α := { l with next := update l.next x y }

/-- `b->next->prev = b->prev; b->prev->next = b->next;` -/
def unlink (l : Links α) (b : α) : Links α :=
  let l := l.setPrev (l.next (some b)) (l.prev (some b))
  l.setNext (l.prev (some b)) (l.next (some b))

/-- `b->next = head.next; b->prev = &head; head.next->prev = b; head.next = b;` -/
def insert (l : Links α) (b : α) : Links α :=
  let l := l.setNext (some b) (l.next none)
  let l := l.setPrev (some b) none
  let l := l.setPrev (l.next none) (some b)
  l.setNext none (some b)

end Changes

def Joined (l : Links α) (x y : Option α) : Prop := l.next x = y ∧ l.prev y = x

/-- The links from the head on lead through `xs` and back to the head, in both directions. -/
def Ring (l : Links α) (xs : List α) : Prop :=
  xs.Nodup ∧ (none :: xs.map some ++ [none]).IsChain l.Joined

/-- Follows `step` from node `x` on to the first element with `p`, or to the head. -/
def scan (step : Option α → Option α) (p : α → Bool) : ℕ → Option α → Option (Option α)
  | 0, _ => none
  | _+1, none => some none
  | n+1, some a => if p a then some (some a) else scan step p n (step (some a))

theorem nodup_nodes (h : xs.Nodup) :
    (none :: xs.map some).Nodup ∧ (xs.map some ++ [none]).Nodup := by
  have hmap := h.map fun _ _ => Option.some.inj
  refine ⟨List.nodup_cons.mpr ⟨by simp, hmap⟩, hmap.append (List.nodup_singleton _) ?_⟩
  simp

/-! Both changes of a ring consist of letting one node follow another. -/

variable [DecidableEq α]

def join (l : Links α) (x y : Option α) : Links α := (l.setPrev y x).setNext x y

theorem join_joined : (l.join x y).Joined x y :=
  ⟨update_self .., update_self ..⟩

theorem join_chain (h : ns.IsChain l.Joined) (hx : x ∉ ns.dropLast) (hy : y ∉ ns.tail) :
    ns.IsChain (l.join x y).Joined := by
  induction ns with
  | nil => exact .nil
  | cons u ns ih =>
    cases ns with
    | nil => exact .singleton u
    | cons v ns =>
      obtain ⟨huv, hrest⟩ := List.isChain_cons_cons.mp h
      rw [List.dropLast_cons_cons, List.mem_cons, not_or] at hx
      rw [List.tail_cons, List.mem_cons, not_or] at hy
      refine List.isChain_cons_cons.mpr ⟨⟨?_, ?_⟩, ih hrest hx.2 hy.2⟩
      · exact (update_of_ne (Ne.symm hx.1) ..).trans huv.1
      · exact (update_of_ne (Ne.symm hy.1) ..).trans huv.2

theorem insert_eq (h : l.next none ≠ some b) :
    l.insert b = (l.join (some b) (l.next none)).join none (some b) := by
  have hnext : update l.next (some b) (l.next none) none = l.next none :=
    update_of_ne (by simp) ..
  simp only [insert, join, setPrev, setNext, hnext]
  rw [update_comm h.symm]

end Links

namespace Links.Ring

theorem next_head (h : l.Ring xs) : l.next none = xs.head? := by
  cases xs with
  | nil | cons => exact (List.isChain_cons_cons.mp h.2).1.1

theorem insert [DecidableEq α] (h : l.Ring xs) (hb : b ∉ xs) : (l.insert b).Ring (b :: xs) := by
  have hnext := h.next_head
  have hne : l.next none ≠ some b := by
    rw [hnext]
    exact fun he => hb (List.mem_of_head? he)
  have hnodup := (nodup_nodes h.1).2
  have hrest : (xs.map some ++ [none]).IsChain l.Joined := h.2.tail
  obtain ⟨ys, hys⟩ : ∃ ys, xs.map some ++ [none] = l.next none :: ys := by
    rw [hnext]
    cases xs <;> exact ⟨_, rfl⟩
  have hsome : some b ∉ xs.map some := by simpa using hb
  -- First the node comes before the others, then the head before the node.
  have hbefore : (some b :: (xs.map some ++ [none])).IsChain
      (l.join (some b) (l.next none)).Joined := by
    rw [hys] at hrest hnodup ⊢
    refine List.isChain_cons_cons.mpr ⟨join_joined, join_chain hrest ?_ ?_⟩
    · rwa [← hys, List.dropLast_concat]
    · exact (List.nodup_cons.mp hnodup).1
  refine ⟨List.nodup_cons.mpr ⟨hb, h.1⟩, ?_⟩
  rw [insert_eq hne]
  refine List.isChain_cons_cons.mpr ⟨join_joined, join_chain hbefore ?_ ?_⟩
  · change none ∉ (some b :: xs.map some ++ [none]).dropLast
    rw [List.dropLast_concat]
    simp
  · simpa using hb

theorem unlink [DecidableEq α] (h : l.Ring (as ++ b :: cs)) : (l.unlink b).Ring (as ++ cs) := by
  obtain ⟨hnodup, hchain⟩ := h
  obtain ⟨us, x, hx⟩ : ∃ us x, none :: as.map some = us ++ [x] :=
    ⟨_, _, (List.dropLast_append_getLast (List.cons_ne_nil _ _)).symm⟩
  obtain ⟨y, vs, hy⟩ : ∃ y vs, cs.map some ++ [none] = y :: vs :=
    List.exists_cons_of_ne_nil (by simp)
  obtain ⟨hinit, htail⟩ := nodup_nodes hnodup
  have hsplit (zs : List α) : none :: (as ++ zs).map some ++ [none] =
      us ++ x :: (zs.map some ++ [none]) := by
    rw [List.map_append, ← List.cons_append, hx, List.append_assoc, List.append_assoc]
    rfl
  rw [hsplit, List.map_cons, List.cons_append, hy] at hchain
  obtain ⟨hbefore, hxb, hafter⟩ := List.isChain_append_cons_cons.mp hchain
  obtain ⟨hby, hafter⟩ := List.isChain_cons_cons.mp hafter
  rw [List.map_append, ← List.cons_append, hx] at hinit
  rw [List.map_append, List.map_cons, List.append_assoc, List.cons_append, hy] at htail
  obtain ⟨hinit, hafterx, hxs⟩ := List.nodup_append.mp hinit
  obtain ⟨-, htail, hys⟩ := List.nodup_append.mp htail
  have hyb : y ≠ some b := by
    rintro rfl
    simp at htail
  have hunlink : l.unlink b = l.join x y := by
    have hprev : update l.prev y x (some b) = x :=
      (update_of_ne hyb.symm ..).trans hxb.2
    simp only [Links.unlink, join, setPrev, setNext, hby.1, hxb.2, hprev]
  refine ⟨hnodup.sublist ((List.sublist_cons_self b cs).append_left as), ?_⟩
  rw [hsplit, hy, hunlink]
  refine List.isChain_append_cons_cons.mpr ⟨join_chain hbefore ?_ ?_, join_joined,
    join_chain hafter ?_ ?_⟩
  · rw [List.dropLast_concat]
    exact fun hmem => (List.nodup_append.mp hinit).2.2 x hmem x (by simp) rfl
  · rw [← hx]
    exact fun hmem => hys y hmem y (by simp) rfl
  · rw [← hy, List.dropLast_concat]
    exact fun hmem => hxs x (by simp) x (List.mem_cons_of_mem _ hmem) rfl
  · exact (List.nodup_cons.mp (List.nodup_cons.mp htail).2).1

theorem toFront [DecidableEq α] (h : l.Ring xs) (hb : b ∈ xs) :
    ((l.unlink b).insert b).Ring (b :: xs.erase b) := by
  obtain ⟨as, cs, hb, rfl, herase⟩ := List.exists_erase_eq hb
  have hnot : b ∉ (as ++ b :: cs).erase b := h.1.not_mem_erase
  rw [herase] at hnot ⊢
  exact h.unlink.insert hnot

variable {n : ℕ}

theorem scan_chain {step : Option α → Option α} (p : α → Bool) (hn : xs.length < n)
    (h : (xs.map some ++ [none]).IsChain fun x y => step x = y) :
    scan step p n xs.head? = some (xs.find? p) := by
  induction xs generalizing n with
  | nil =>
    obtain ⟨n, rfl⟩ := Nat.exists_eq_succ_of_ne_zero (by omega : n ≠ 0)
    rfl
  | cons a xs ih =>
    obtain ⟨n, rfl⟩ := Nat.exists_eq_succ_of_ne_zero (by omega : n ≠ 0)
    rw [List.head?_cons, scan, List.find?_cons]
    have hstep : step (some a) = xs.head? := by
      cases xs with
      | nil | cons => exact (List.isChain_cons_cons.mp h).1
    cases p a with
    | true => rfl
    | false =>
      rw [hstep]
      exact ih (by simpa using hn) h.tail

theorem scan_next (h : l.Ring xs) (p : α → Bool) (hn : xs.length < n) :
    scan l.next p n (l.next none) = some (xs.find? p) := by
  rw [h.next_head]
  exact scan_chain p hn (h.2.tail.imp fun _ _ hj => hj.1)

theorem scan_prev (h : l.Ring xs) (p : α → Bool) (hn : xs.length < n) :
    scan l.prev p n (l.prev none) = some (xs.reverse.find? p) := by
  have hrev : (none :: xs.reverse.map some ++ [none]).IsChain fun x y => l.prev x = y := by
    have hchain := List.isChain_reverse.mpr (h.2.imp fun _ _ hj => hj.2)
    simpa using hchain
  have hlast : l.prev none = xs.reverse.head? := by
    cases hx : xs.reverse with
    | nil | cons => rw [hx] at hrev; exact (List.isChain_cons_cons.mp hrev).1
  rw [hlast]
  exact scan_chain p (by simpa using hn) hrev.tail

end Links.Ring

end Xv6
