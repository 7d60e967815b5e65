import Xv6.LinkedRing
import Xv6.DiskBlock
import Mathlib.Data.Fintype.Card

/-! The list of buffers and their reference counts, kernel/bio.c. A step of a thread is a section
under `bcache.lock` or an operation of the sleep-lock of a buffer. -/
namespace Xv6.Bcache

open Function

/-- `struct buf` without its contents. -/
structure Buf (T : Type) where
  dev : UInt32
  blockno : UInt32
  valid : Bool
  refcnt : UInt32
  lock : Option T

inductive Status where
  | outside
  /-- In `acquiresleep` of `bget`. -/
  | sleeps (i : Fin NBUF)
  /-- In `brelse`, after `releasesleep`. -/
  | releases (i : Fin NBUF)

/-- The cache and its users. For the record, `pins` counts the calls of `bpin` without a `bunpin`,
and `dropped` says which drop of a count to 0 was the last one of a buffer. -/
structure State (T : Type) where
  buf : Fin NBUF → Buf T
  links : Links (Fin NBUF)
  thread : T → Status
  pins : Fin NBUF → ℕ
  drops : ℕ
  dropped : Fin NBUF → Option ℕ

variable {T : Type} [DecidableEq T] {s s' : State T} {t : T} {i j : Fin NBUF} {b : Buf T}
  {xs : List (Fin NBUF)} {refs : List (T × Fin NBUF)} {dev blockno : UInt32}

def binit : State T where
  buf _ := ⟨0, 0, false, 0, none⟩
  links := (List.finRange NBUF).foldl Links.insert ⟨fun _ => none, fun _ => none⟩
  thread _ := .outside
  pins _ := 0
  drops := 0
  dropped _ := none

inductive Found where
  | cached (i : Fin NBUF)
  | unused (i : Fin NBUF)
  | noBuffers

namespace State

def setBuf (s : State T) (i : Fin NBUF) (b : Buf T) : State T :=
  { s with buf := update s.buf i b }

def setThread (s : State T) (t : T) (status : Status) : State T :=
  { s with thread := update s.thread t status }

def isBlock (s : State T) (dev blockno : UInt32) (i : Fin NBUF) : Bool :=
  (s.buf i).dev = dev && (s.buf i).blockno = blockno

/-- The two loops of `bget`; no answer if one of them does not come back to the head. -/
def find (s : State T) (dev blockno : UInt32) : Option Found :=
  match Links.scan s.links.next (s.isBlock dev blockno) (NBUF+1) (s.links.next none) with
  | none => none
  | some (some i) => some (.cached i)
  | some none =>
    (Links.scan s.links.prev (fun i => (s.buf i).refcnt = 0) (NBUF+1) (s.links.prev none)).map
      fun r => r.elim .noBuffers .unused

/-- `bget` up to its `acquiresleep`. -/
def bget (s : State T) (t : T) (dev blockno : UInt32) : Option (Except String (State T)) :=
  (s.find dev blockno).map fun
    | .cached i => .ok ((s.setBuf i { s.buf i with refcnt := (s.buf i).refcnt+1 }).setThread t
        (.sleeps i))
    | .unused i => .ok ((s.setBuf i { s.buf i with
        dev := dev, blockno := blockno, valid := false, refcnt := 1 }).setThread t (.sleeps i))
    | .noBuffers => .error "bget: no buffers"

def acquiresleep (s : State T) (t : T) (i : Fin NBUF) : Option (Except String (State T)) :=
  if (s.buf i).lock = none then
    some (.ok ((s.setBuf i { s.buf i with lock := some t }).setThread t .outside))
  else none

/-- `brelse` up to its `releasesleep`. -/
def brelse (s : State T) (t : T) (i : Fin NBUF) : Except String (State T) :=
  if (s.buf i).lock = some t then
    .ok ((s.setBuf i { s.buf i with lock := none }).setThread t (.releases i))
  else .error "brelse"

/-- `b->refcnt--`, and the record of it. -/
def decRef (s : State T) (i : Fin NBUF) : State T :=
  let refcnt := (s.buf i).refcnt-1
  let s := s.setBuf i { s.buf i with refcnt := refcnt }
  if refcnt = 0 then
    { s with drops := s.drops+1, dropped := update s.dropped i (some s.drops) }
  else s

/-- The rest of `brelse`. -/
def unref (s : State T) (t : T) (i : Fin NBUF) : State T :=
  let s := s.decRef i
  let s := if (s.buf i).refcnt = 0 then { s with links := (s.links.unlink i).insert i } else s
  s.setThread t .outside

def bpin (s : State T) (i : Fin NBUF) : State T :=
  { s.setBuf i { s.buf i with refcnt := (s.buf i).refcnt+1 } with
    pins := update s.pins i (s.pins i+1) }

def bunpin (s : State T) (i : Fin NBUF) : State T :=
  { s.decRef i with pins := update s.pins i (s.pins i-1) }

end State

inductive Act where
  | bget (dev blockno : UInt32)
  | brelse (i : Fin NBUF)
  | bpin (i : Fin NBUF)
  | bunpin (i : Fin NBUF)
  /-- The thread goes on in `bget` or `brelse`. -/
  | goOn

def step (s : State T) (t : T) (a : Act) : Option (Except String (State T)) :=
  match s.thread t, a with
  | .outside, .bget dev blockno => s.bget t dev blockno
  | .outside, .brelse i => some (s.brelse t i)
  | .outside, .bpin i => some (.ok (s.bpin i))
  | .outside, .bunpin i => some (.ok (s.bunpin i))
  | .sleeps i, .goOn => s.acquiresleep t i
  | .releases i, .goOn => some (.ok (s.unref t i))
  | _, _ => none

/-- The states that the threads get to by steps that meet `ok`. -/
inductive Run (ok : State T → T → Act → Prop) : State T → Prop
  | start : Run ok binit
  | step {s s' : State T} {t : T} {a : Act} (hr : Run ok s) (hok : ok s t a)
      (hs : step s t a = some (.ok s')) : Run ok s'

/-- `bunpin` is called by the holder of the lock. -/
def HeldUnpins (s : State T) (t : T) (a : Act) : Prop :=
  ∀ i, a = .bunpin i → (s.buf i).lock = some t

/-- Moreover it takes back a `bpin`, and no count is about to wrap around. -/
def PairedUnpins (s : State T) (t : T) (a : Act) : Prop :=
  HeldUnpins s t a ∧ (∀ i, a = .bunpin i → 0 < s.pins i) ∧ ∀ i, (s.buf i).refcnt ≠ -1

/-- Buffers in the order in which their counts have last dropped to 0. Those that were never used
come first. -/
def State.age (s : State T) (i : Fin NBUF) : ℕ := (s.dropped i).elim i.val (NBUF+·)

/-! The list is ordered by age. -/

structure Ordered (s : State T) (xs : List (Fin NBUF)) : Prop where
  ring : s.links.Ring xs
  all : ∀ i, i ∈ xs
  sorted : xs.Pairwise fun i j => s.age j < s.age i
  past : ∀ i n, s.dropped i = some n → n < s.drops

theorem length_lt {l : Links (Fin NBUF)} (h : l.Ring xs) : xs.length < NBUF+1 := by
  have hcard := List.Nodup.length_le_card h.1
  rw [Fintype.card_fin] at hcard
  omega

theorem foldl_insert {l : Links (Fin NBUF)} (ys : List (Fin NBUF)) (h : l.Ring xs)
    (hd : (ys.reverse ++ xs).Nodup) : (ys.foldl Links.insert l).Ring (ys.reverse ++ xs) := by
  induction ys generalizing l xs with
  | nil => exact h
  | cons y ys ih =>
    rw [List.reverse_cons, List.append_assoc] at hd ⊢
    refine ih (h.insert ?_) hd
    exact (List.nodup_cons.mp (List.nodup_append.mp hd).2.1).1

omit [DecidableEq T] in
theorem Ordered.binit : Ordered (binit : State T) (List.finRange NBUF).reverse where
  ring := by
    have hempty : (⟨fun _ => none, fun _ => none⟩ : Links (Fin NBUF)).Ring [] :=
      ⟨.nil, by simp [Links.Joined]⟩
    have hd : ((List.finRange NBUF).reverse ++ []).Nodup := by simp [List.nodup_finRange]
    have hring := foldl_insert (List.finRange NBUF) hempty hd
    rwa [List.append_nil] at hring
  all i := by simp
  sorted := by
    rw [List.pairwise_reverse]
    exact List.pairwise_lt_finRange NBUF
  past := nofun

namespace Ordered

omit [DecidableEq T] in
theorem age_lt (h : Ordered s xs) (i : Fin NBUF) : s.age i < NBUF+s.drops := by
  rw [State.age]
  cases hi : s.dropped i with
  | none => exact Nat.lt_add_right _ i.isLt
  | some n => exact Nat.add_lt_add_left (h.past i n hi) _

theorem unref (h : Ordered s xs) (t : T) (i : Fin NBUF) : ∃ ys, Ordered (s.unref t i) ys := by
  by_cases h0 : (s.buf i).refcnt-1 = 0
  · have hi : i ∉ xs.erase i := h.ring.1.not_mem_erase
    have hs : s.unref t i = { s with
        buf := update s.buf i { s.buf i with refcnt := (s.buf i).refcnt-1 }
        links := (s.links.unlink i).insert i
        thread := update s.thread t .outside
        drops := s.drops+1
        dropped := update s.dropped i (some s.drops) } := by
      simp [State.unref, State.decRef, State.setBuf, State.setThread, h0]
    have hage (j : Fin NBUF) : (s.unref t i).age j = if j = i then NBUF+s.drops else s.age j := by
      rw [hs, State.age, State.age]
      dsimp only
      split_ifs with hj
      · rw [hj, update_self]
        rfl
      · rw [update_of_ne hj]
    refine ⟨i :: xs.erase i, ?_, fun j => ?_, ?_, fun j n hn => ?_⟩
    · rw [hs]
      exact h.ring.toFront (h.all i)
    · exact (List.perm_cons_erase (h.all i)).mem_iff.mp (h.all j)
    · refine List.pairwise_cons.mpr ⟨fun j hj => ?_, ?_⟩
      · have hji : j ≠ i := fun he => hi (he ▸ hj)
        rw [hage, hage, if_pos rfl, if_neg hji]
        exact h.age_lt j
      · have hrest := h.sorted.sublist (List.erase_sublist (a := i))
        refine hrest.imp_of_mem fun {j k} hj hk hjk => ?_
        have hji : j ≠ i := fun he => hi (he ▸ hj)
        have hki : k ≠ i := fun he => hi (he ▸ hk)
        rwa [hage, hage, if_neg hji, if_neg hki]
    · rw [hs] at hn ⊢
      by_cases hj : j = i
      · rw [hj] at hn
        dsimp only at hn
        rw [update_self, Option.some.injEq] at hn
        exact hn ▸ Nat.lt_succ_self _
      · dsimp only at hn
        rw [update_of_ne hj] at hn
        exact Nat.lt_succ_of_lt (h.past j n hn)
  · have hs : s.unref t i = (s.setBuf i { s.buf i with refcnt := (s.buf i).refcnt-1 }).setThread t
        .outside := by
      simp [State.unref, State.decRef, State.setBuf, State.setThread, h0]
    rw [hs]
    exact ⟨xs, h.ring, h.all, h.sorted, h.past⟩

omit [DecidableEq T] in
/-- What `bget` finds: the buffer of the block, or else the oldest one without references. -/
theorem find_spec (h : Ordered s xs) (dev blockno : UInt32) :
    (∃ i, s.find dev blockno = some (.cached i) ∧ (s.buf i).dev = dev ∧
      (s.buf i).blockno = blockno) ∨
    (∃ i, s.find dev blockno = some (.unused i) ∧
      (∀ j, ¬((s.buf j).dev = dev ∧ (s.buf j).blockno = blockno)) ∧ (s.buf i).refcnt = 0 ∧ ∀ j, (s.buf j).refcnt = 0 → s.age i ≤ s.age j) ∨
    s.find dev blockno = some .noBuffers ∧ ∀ j, (s.buf j).refcnt ≠ 0 := by
  rw [State.find, h.ring.scan_next _ (length_lt h.ring), h.ring.scan_prev _ (length_lt h.ring)]
  cases hc : xs.find? (s.isBlock dev blockno) with
  | some i => exact .inl ⟨i, rfl, by simpa [State.isBlock] using List.find?_some hc⟩
  | none =>
    have hno (j : Fin NBUF) : ¬((s.buf j).dev = dev ∧ (s.buf j).blockno = blockno) := by
      simpa [State.isBlock] using List.find?_eq_none.mp hc j (h.all j)
    cases hu : xs.reverse.find? fun i => decide ((s.buf i).refcnt = 0) with
    | none =>
      refine .inr (.inr ⟨rfl, fun j hj => ?_⟩)
      exact List.find?_eq_none.mp hu j (List.mem_reverse.mpr (h.all j)) (decide_eq_true hj)
    | some i =>
      obtain ⟨hi, as, cs, hsplit, has⟩ := List.find?_eq_some_iff_append.mp hu
      refine .inr (.inl ⟨i, rfl, hno, of_decide_eq_true hi, fun j hj => ?_⟩)
      have hsorted := List.pairwise_reverse.mpr h.sorted
      rw [hsplit] at hsorted
      have hmem := hsplit ▸ List.mem_reverse.mpr (h.all j)
      rcases List.mem_append.mp hmem with hj' | hj'
      · simpa [hj] using has j hj'
      · rcases List.mem_cons.mp hj' with rfl | hj'
        · exact le_rfl
        · exact ((List.pairwise_cons.mp (List.pairwise_append.mp hsorted).2.1).1 j hj').le

end Ordered

/-! The counts are those of the references. -/

structure Counted (s : State T) (refs : List (T × Fin NBUF)) : Prop where
  count : ∀ i, (s.buf i).refcnt.toNat = (refs.map Prod.snd).count i+s.pins i
  locked : ∀ i t, (s.buf i).lock = some t → (t, i) ∈ refs
  sleeps : ∀ t i, s.thread t = .sleeps i → (t, i) ∈ refs
  releases : ∀ t i, s.thread t = .releases i → (t, i) ∈ refs ∧ (s.buf i).lock ≠ some t

theorem toNat_succ {n : UInt32} (h : n ≠ -1) : (n+1).toNat = n.toNat+1 := by
  have hlt := n.toNat_lt
  have hne : n.toNat ≠ 2^32-1 := fun he => h (UInt32.toNat_inj.mp (he.trans rfl))
  exact Nat.mod_eq_of_lt (by change n.toNat+1 < 2^32; omega)

theorem toNat_pred {n : UInt32} (h : 0 < n.toNat) : (n-1).toNat = n.toNat-1 :=
  UInt32.toNat_sub_of_le _ _ (UInt32.le_iff_toNat_le.mpr h)

omit [DecidableEq T] in
theorem decRef_fields (s : State T) (i : Fin NBUF) :
    (s.decRef i).buf = update s.buf i { s.buf i with refcnt := (s.buf i).refcnt-1 } ∧
      (s.decRef i).thread = s.thread := by
  rw [State.decRef]
  split_ifs <;> exact ⟨rfl, rfl⟩

theorem unref_fields (s : State T) (t : T) (i : Fin NBUF) :
    (s.unref t i).buf = update s.buf i { s.buf i with refcnt := (s.buf i).refcnt-1 } ∧
      (s.unref t i).thread = update s.thread t .outside ∧
      (s.unref t i).pins = s.pins := by
  rw [State.unref, State.decRef]
  split_ifs <;> exact ⟨rfl, rfl, rfl⟩

namespace Counted

omit [DecidableEq T] in
theorem pos_of_mem (h : Counted s refs) (hmem : (t, i) ∈ refs) : 0 < (s.buf i).refcnt.toNat := by
  have hone : 0 < (refs.map Prod.snd).count i := List.count_pos_iff.mpr (List.mem_map_of_mem hmem)
  rw [h.count]
  omega

omit [DecidableEq T] in
theorem pos_of_pins (h : Counted s refs) (hp : 0 < s.pins i) : 0 < (s.buf i).refcnt.toNat := by
  rw [h.count]
  omega

theorem bget (h : Counted s refs) (hl : b.lock = (s.buf i).lock)
    (hn : b.refcnt.toNat = (refs.map Prod.snd).count i+s.pins i+1) :
    Counted ((s.setBuf i b).setThread t (.sleeps i)) ((t, i) :: refs) := by
  refine ⟨fun j => ?_, fun j u hj => ?_, fun u j hu => ?_, fun u j hu => ?_⟩
  all_goals simp only [State.setBuf, State.setThread, update_apply] at *
  · grind [h.count j]
  · grind [h.locked j u]
  · grind [h.sleeps u j]
  · grind [h.releases u j]

theorem acquiresleep (h : Counted s refs) (ht : s.thread t = .sleeps i) :
    Counted ((s.setBuf i { s.buf i with lock := some t }).setThread t .outside) refs := by
  refine ⟨fun j => ?_, fun j u hj => ?_, fun u j hu => ?_, fun u j hu => ?_⟩
  all_goals simp only [State.setBuf, State.setThread, update_apply] at *
  · grind [h.count j]
  · grind [h.locked j u, h.sleeps t i]
  · grind [h.sleeps u j]
  · grind [h.releases u j]

theorem brelse (h : Counted s refs) (hl : (s.buf i).lock = some t) :
    Counted ((s.setBuf i { s.buf i with lock := none }).setThread t (.releases i)) refs := by
  refine ⟨fun j => ?_, fun j u hj => ?_, fun u j hu => ?_, fun u j hu => ?_⟩
  all_goals simp only [State.setBuf, State.setThread, update_apply] at *
  · grind [h.count j]
  · grind [h.locked j u]
  · grind [h.sleeps u j]
  · grind [h.releases u j, h.locked i t]

theorem unref (h : Counted s refs) (ht : s.thread t = .releases i) :
    Counted (s.unref t i) (refs.erase (t, i)) := by
  obtain ⟨hmem, hl⟩ := h.releases t i ht
  have hperm := (List.perm_cons_erase hmem).map Prod.snd
  have hcount (j : Fin NBUF) : (refs.map Prod.snd).count j =
      ((refs.erase (t, i)).map Prod.snd).count j+if j = i then 1 else 0 := by
    rw [hperm.count_eq, List.map_cons, List.count_cons]
    simp only [beq_iff_eq, eq_comm (a := i)]
  obtain ⟨hbuf, hthread, hpins⟩ := unref_fields s t i
  refine ⟨fun j => ?_, fun j u hj => ?_, fun u j hu => ?_, fun u j hu => ?_⟩
  all_goals simp only [hbuf, hthread, hpins, update_apply] at *
  · grind [h.count j, toNat_pred (h.pos_of_mem hmem)]
  · exact (List.mem_erase_of_ne (by grind)).mpr (h.locked j u (by grind))
  · exact (List.mem_erase_of_ne (by grind)).mpr (h.sleeps u j (by grind))
  · have hut : u ≠ t := by
      rintro rfl
      simp at hu
    rw [if_neg hut] at hu
    obtain ⟨hmem', hl'⟩ := h.releases u j hu
    refine ⟨(List.mem_erase_of_ne (by grind)).mpr hmem', ?_⟩
    split_ifs with hj
    · exact hj ▸ hl'
    · exact hl'

omit [DecidableEq T] in
theorem bpin (h : Counted s refs) (hn : (s.buf i).refcnt ≠ -1) : Counted (s.bpin i) refs := by
  refine ⟨fun j => ?_, fun j u hj => ?_, h.sleeps, fun u j hu => ?_⟩
  all_goals simp only [State.bpin, State.setBuf, update_apply] at *
  · grind [h.count j, toNat_succ hn]
  · grind [h.locked j u]
  · grind [h.releases u j]

omit [DecidableEq T] in
theorem bunpin (h : Counted s refs) (hp : 0 < s.pins i) : Counted (s.bunpin i) refs := by
  obtain ⟨hbuf, hthread⟩ := decRef_fields s i
  refine ⟨fun j => ?_, fun j u hj => ?_, fun u j hu => ?_, fun u j hu => ?_⟩
  all_goals simp only [State.bunpin, hbuf, hthread, update_apply] at *
  · grind [h.count j, toNat_pred (h.pos_of_pins hp)]
  · grind [h.locked j u]
  · grind [h.sleeps u j]
  · grind [h.releases u j]

omit [DecidableEq T] in
/-- The holder of the lock has a reference, so that `bunpin` leaves one. -/
theorem not_dropped (h : Counted s refs) (hl : (s.buf i).lock = some t) (hp : 0 < s.pins i) :
    (s.buf i).refcnt-1 ≠ 0 := by
  have hone : 0 < (refs.map Prod.snd).count i :=
    List.count_pos_iff.mpr (List.mem_map_of_mem (h.locked i t hl))
  have hcount := h.count i
  intro h0
  have hpred := toNat_pred (n := (s.buf i).refcnt) (by omega)
  rw [h0] at hpred
  change 0 = _ at hpred
  omega

end Counted

def Unique (s : State T) : Prop :=
  ∀ i j, (s.buf i).dev ≠ 0 → (s.buf j).dev = (s.buf i).dev →
    (s.buf j).blockno = (s.buf i).blockno → i = j

omit [DecidableEq T] in
theorem Unique.setBuf (h : Unique s) (hs : s'.buf = update s.buf i b)
    (hd : b.dev = (s.buf i).dev) (hb : b.blockno = (s.buf i).blockno) : Unique s' := by
  have hsame (j : Fin NBUF) : (s'.buf j).dev = (s.buf j).dev ∧
      (s'.buf j).blockno = (s.buf j).blockno := by
    rw [hs]
    by_cases hj : j = i
    · rw [hj, update_self]
      exact ⟨hd, hb⟩
    · rw [update_of_ne hj]
      exact ⟨rfl, rfl⟩
  intro j k
  simp only [hsame]
  exact h j k

structure Inv (s : State T) : Prop where
  ordered : ∃ xs, Ordered s xs
  unique : Unique s
  counted : ∃ refs, Counted s refs

theorem Inv.bget (h : Inv s) (hmax : ∀ i, (s.buf i).refcnt ≠ -1)
    (hs : s.bget t dev blockno = some (.ok s')) : Inv s' := by
  obtain ⟨⟨xs, ho⟩, hu, refs, hc⟩ := h
  obtain ⟨found, hfind, hs⟩ := Option.map_eq_some_iff.mp hs
  rcases ho.find_spec dev blockno with ⟨i, hi, -⟩ | ⟨i, hi, hno, h0, -⟩ | ⟨hi, -⟩
  all_goals
    rw [hi] at hfind
    cases hfind
  · cases hs
    refine ⟨⟨xs, ho.ring, ho.all, ho.sorted, ho.past⟩, hu.setBuf rfl rfl rfl,
      (t, i) :: refs, hc.bget rfl ?_⟩
    rw [toNat_succ (hmax i), hc.count]
  · cases hs
    refine ⟨⟨xs, ho.ring, ho.all, ho.sorted, ho.past⟩, fun j k hj hd hb => ?_,
      (t, i) :: refs, hc.bget rfl ?_⟩
    · simp only [State.setBuf, State.setThread, update_apply] at hj hd hb
      grind [hu j k]
    · rw [← hc.count, h0]
      rfl
  · cases hs

theorem Inv.step {a : Act} (h : Inv s) (hok : PairedUnpins s t a)
    (hs : step s t a = some (.ok s')) : Inv s' := by
  obtain ⟨hheld, hpaired, hmax⟩ := hok
  obtain ⟨⟨xs, ho⟩, hu, refs, hc⟩ := h
  have hsame (hs' : s'.links = s.links ∧ s'.drops = s.drops ∧ s'.dropped = s.dropped) :
      ∃ ys, Ordered s' ys := by
    obtain ⟨buf, links, thread, pins, drops, dropped⟩ := s'
    obtain ⟨rfl, rfl, rfl⟩ := hs'
    exact ⟨xs, ho.ring, ho.all, ho.sorted, ho.past⟩
  unfold Bcache.step at hs
  cases ht : s.thread t with
  | outside =>
    rw [ht] at hs
    cases a with
    | bget dev blockno => exact Inv.bget ⟨⟨xs, ho⟩, hu, refs, hc⟩ hmax hs
    | brelse i =>
      have hs := Option.some.inj hs
      rw [State.brelse] at hs
      split_ifs at hs with hl
      obtain rfl := Except.ok.inj hs
      exact ⟨hsame ⟨rfl, rfl, rfl⟩, hu.setBuf rfl rfl rfl, refs, hc.brelse hl⟩
    | bpin i =>
      obtain rfl := Except.ok.inj (Option.some.inj hs)
      exact ⟨hsame ⟨rfl, rfl, rfl⟩, hu.setBuf rfl rfl rfl, refs, hc.bpin (hmax i)⟩
    | bunpin i =>
      obtain rfl := Except.ok.inj (Option.some.inj hs)
      have hp := hpaired i rfl
      refine ⟨hsame ?_, hu.setBuf (decRef_fields s i).1 rfl rfl, refs, hc.bunpin hp⟩
      rw [State.bunpin, State.decRef]
      dsimp only
      rw [if_neg (hc.not_dropped (hheld i rfl) hp)]
      exact ⟨rfl, rfl, rfl⟩
    | goOn => cases hs
  | sleeps i =>
    rw [ht] at hs
    cases a with
    | goOn =>
      obtain ⟨hl, hs⟩ := Option.ite_none_right_eq_some.mp hs
      obtain rfl := Except.ok.inj (Option.some.inj hs)
      exact ⟨hsame ⟨rfl, rfl, rfl⟩, hu.setBuf rfl rfl rfl, refs, hc.acquiresleep ht⟩
    | _ => cases hs
  | releases i =>
    rw [ht] at hs
    cases a with
    | goOn =>
      obtain rfl := Except.ok.inj (Option.some.inj hs)
      exact ⟨ho.unref t i, hu.setBuf (unref_fields s t i).1 rfl rfl, _, hc.unref ht⟩
    | _ => cases hs

theorem Run.inv (hr : Run PairedUnpins s) : Inv s := by
  induction hr with
  | start =>
    refine ⟨⟨_, Ordered.binit⟩, fun i j => absurd rfl, [], fun i => rfl, nofun, nofun, nofun⟩
  | step _ hok hs ih => exact ih.step hok hs

/-- The links form a ring of all buffers, there is one buffer for a block, and `bget` finds the buffer
of the block or recycles, among the buffers without references, the one whose last drop to 0 is the
oldest; nobody is using it. -/
structure Sound (s : State T) : Prop where
  ring : ∃ xs, s.links.Ring xs ∧ ∀ i, i ∈ xs
  unique : Unique s
  find : ∀ dev blockno, (∃ i, s.find dev blockno = some (.cached i) ∧ (s.buf i).dev = dev ∧
      (s.buf i).blockno = blockno) ∨
    (∃ i, s.find dev blockno = some (.unused i) ∧
      (∀ j, ¬((s.buf j).dev = dev ∧ (s.buf j).blockno = blockno)) ∧
      ((s.buf i).refcnt = 0 ∧ ∀ j, (s.buf j).refcnt = 0 → s.age i ≤ s.age j) ∧
      (s.buf i).lock = none ∧ s.pins i = 0 ∧
      ∀ t, s.thread t ≠ .sleeps i ∧ s.thread t ≠ .releases i) ∨
    s.find dev blockno = some .noBuffers ∧ ∀ j, (s.buf j).refcnt ≠ 0

/-- For any interleaving in which `bunpin` is called by the holder of the lock, for a `bpin` that is
not taken back yet, and no count wraps around. -/
theorem bcache_sound (hr : Run PairedUnpins s) : Sound s := by
  obtain ⟨⟨xs, ho⟩, hu, refs, hc⟩ := hr.inv
  refine ⟨⟨xs, ho.ring, ho.all⟩, hu, fun dev blockno => ?_⟩
  rcases ho.find_spec dev blockno with hcached | ⟨i, hi, hno, h0, hold⟩ | hnone
  · exact .inl hcached
  · have hcount := hc.count i
    rw [h0] at hcount
    obtain ⟨href, hpins⟩ := Nat.add_eq_zero_iff.mp hcount.symm
    have hnot (t : T) : (t, i) ∉ refs :=
      fun hmem => List.count_eq_zero.mp href (List.mem_map_of_mem hmem)
    refine .inr (.inl ⟨i, hi, hno, ⟨h0, hold⟩, ?_, hpins, fun t => ⟨fun ht => ?_, fun ht => ?_⟩⟩)
    · exact Option.eq_none_iff_forall_ne_some.mpr fun t ht => hnot t (hc.locked i t ht)
    · exact hnot t (hc.sleeps t i ht)
    · exact hnot t (hc.releases t i ht).1
  · exact .inr (.inr hnone)

theorem bcache_sound_pinned : ∃ s : State Bool, Run PairedUnpins s ∧
    (s.buf 0).lock = some true ∧ s.find 1 7 = some (.cached 0) ∧ Sound s := by
  have hrun : ∃ s : State Bool, Run PairedUnpins s ∧ (s.buf 0).lock = some true ∧
      s.find 1 7 = some (.cached 0) := by
    have hunpin (i : Fin NBUF) (hi : Act.bunpin 0 = .bunpin i) : 0 = i := Act.bunpin.inj hi
    refine ⟨_, .step (t := true) (a := .bunpin 0) (.step (t := true) (a := .bpin 0)
      (.step (t := true) (a := .goOn) (.step (t := true) (a := .bget 1 7) .start
        ⟨nofun, nofun, ?_⟩ rfl) ⟨nofun, nofun, ?_⟩ rfl) ⟨nofun, nofun, ?_⟩ rfl)
      ⟨fun i hi => hunpin i hi ▸ rfl, fun i hi => hunpin i hi ▸ Nat.one_pos, ?_⟩ rfl, rfl, rfl⟩
    all_goals decide +kernel
  obtain ⟨s, hr, hl, hf⟩ := hrun
  exact ⟨s, hr, hl, hf, bcache_sound hr⟩

/-- Without the `bpin`, `bunpin` of a locked buffer drops its count to 0 where it stands in the list,
and `bget` recycles it before buffers that were never used. -/
theorem unpaired_bunpin : ∃ s : State Bool, Run HeldUnpins s ∧
    s.find 1 8 = some (.unused 0) ∧ (s.buf 0).lock = some true ∧
    (s.buf 1).refcnt = 0 ∧ s.age 1 < s.age 0 := by
  refine ⟨_, .step (t := true) (a := .bunpin 0) (.step (t := true) (a := .goOn)
    (.step (t := true) (a := .bget 1 7) .start nofun rfl) nofun rfl) ?_ rfl, rfl, rfl, rfl, ?_⟩
  · intro i hi
    obtain rfl := Act.bunpin.inj hi
    rfl
  · decide

end Xv6.Bcache
