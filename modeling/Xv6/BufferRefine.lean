import Xv6.BufferList
import Xv6.BufferRefs

/-! The ring of kernel/bio.c is the list of the sequential cache: what a thread does to the one in a
section under a lock, the functions of BioCache do to the other. -/
namespace Xv6.Bcache
open StateOutcome Function Relation

/-- The fields of `struct buf` that both have. -/
structure Buf.Is (b : Buf ℕ) (c : Xv6.Buf) : Prop where
  block : c.dev = b.dev.toNat ∧ c.blockno = b.blockno.toNat
  refcnt : c.refcnt = b.refcnt.toNat
  lock : c.lock = b.lock

structure State.Is (s : State ℕ) (m : Machine) : Prop where
  ring : s.links.Ring m.lru
  all : ∀ i, i ∈ m.lru
  buf : ∀ i, (s.buf i).Is (m.buf i)

/-- `brelse` up to its `releasesleep`. -/
def brelseUnlock (p : ℕ) (i : Fin NBUF) : Kern Unit := do
  if !(← holdingsleep p i) then throw (.panic "brelse")
  modBuf i fun b => { b with lock := none }

/-- The rest of `brelse`. -/
def brelseUnref (i : Fin NBUF) : Kern Unit := do
  modBuf i fun b => { b with refcnt := b.refcnt-1 }
  modify fun m => if (m.buf i).refcnt = 0 then { m with lru := i :: m.lru.erase i } else m

theorem brelse_eq (p : ℕ) (i : Fin NBUF) : brelse p i = (do brelseUnlock p i; brelseUnref i) := by
  rw [brelse, brelseUnlock, brelseUnref, bind_assoc]
  refine bind_congr fun held => ?_
  cases held <;> rfl

/-- What a thread does next, and where it is after that. -/
def nextSection (t : ℕ) : Status → Act → Kern Status
  | .sleeps i, _ => do acquiresleep t i; return .outside
  | .releases i, _ => do brelseUnref i; return .outside
  | .outside, .bget dev blockno => do return .sleeps (← bgetRef dev.toNat blockno.toNat)
  | .outside, .brelse i => do brelseUnlock t i; return .releases i
  | .outside, .bpin i => do bpin i; return .outside
  | .outside, .bunpin i => do bunpin i; return .outside
  | .outside, .goOn => return .outside

variable {s s' : State ℕ} {m : Machine} {t : ℕ} {i : Fin NBUF} {a : Act}

namespace State.Is

theorem setBuf {b : Buf ℕ} {c : Xv6.Buf} (h : s.Is m) (hlinks : s'.links = s.links)
    (hbuf : s'.buf = update s.buf i b) (hb : (s.buf i).Is (m.buf i) → b.Is c) :
    s'.Is (m.setBuf i c) := by
  refine ⟨hlinks ▸ h.ring, h.all, fun j => ?_⟩
  rw [hbuf, setBuf_buf]
  by_cases hj : j = i
  · rw [hj, update_self, update_self]
    exact hb (h.buf i)
  · rw [update_of_ne hj, update_of_ne hj]
    exact h.buf j

theorem bget {dev blockno : UInt32} (h : s.Is m) (hmax : ∀ i, (s.buf i).refcnt ≠ -1)
    (hs : s.bget t dev blockno = some (.ok s')) :
    post (bgetRef dev.toNat blockno.toNat) m
      (fun i m' => s'.thread = update s.thread t (.sleeps i) ∧ s'.Is m') never := by
  have hcached : cachedIn m dev.toNat blockno.toNat = s.isBlock dev blockno := by
    funext i
    rw [cachedIn, State.isBlock, (h.buf i).block.1, (h.buf i).block.2]
    simp only [beq_eq_decide, UInt32.toNat_inj]
  have hunused : (fun i => (m.buf i).refcnt == 0) = fun i => decide ((s.buf i).refcnt = 0) := by
    funext i
    rw [(h.buf i).refcnt, beq_eq_decide, decide_eq_decide]
    exact UInt32.toNat_inj (b := 0)
  rw [State.bget, State.find, h.ring.scan_next _ (length_lt h.ring),
    h.ring.scan_prev _ (length_lt h.ring)] at hs
  simp only [bgetRef, post_bind, post_get, hcached, hunused]
  cases hc : m.lru.find? (s.isBlock dev blockno) with
  | some i =>
    rw [hc] at hs
    cases hs
    refine ⟨rfl, h.setBuf rfl rfl fun hi => ⟨hi.block, ?_, hi.lock⟩⟩
    rw [toNat_succ (hmax i), ← hi.refcnt]
  | none =>
    rw [hc] at hs
    cases hu : m.lru.reverse.find? fun i => decide ((s.buf i).refcnt = 0) with
    | some i =>
      rw [hu] at hs
      cases hs
      exact ⟨rfl, h.setBuf rfl rfl fun hi => ⟨⟨rfl, rfl⟩, rfl, hi.lock⟩⟩
    | none =>
      rw [hu] at hs
      cases hs

theorem decRef (h : s.Is m) (hpos : 0 < (s.buf i).refcnt.toNat) :
    (s.decRef i).Is (m.setBuf i { m.buf i with refcnt := (m.buf i).refcnt-1 }) := by
  have hlinks : (s.decRef i).links = s.links := by
    rw [State.decRef]
    split_ifs <;> rfl
  refine h.setBuf hlinks (decRef_fields s i).1 fun hi => ⟨hi.block, ?_, hi.lock⟩
  rw [toNat_pred hpos, hi.refcnt]

theorem unref (h : s.Is m) (t : ℕ) (hpos : 0 < (s.buf i).refcnt.toNat) :
    post (brelseUnref i) m (fun _ m' => (s.unref t i).Is m') never := by
  have hmove (m1 : Machine) (h1 : (s.decRef i).Is m1) : (s.unref t i).Is
      (if (m1.buf i).refcnt = 0 then { m1 with lru := i :: m1.lru.erase i } else m1) := by
    have hzero : (m1.buf i).refcnt = 0 ↔ ((s.decRef i).buf i).refcnt = 0 := by
      rw [(h1.buf i).refcnt]
      exact UInt32.toNat_inj (b := 0)
    rw [State.unref]
    by_cases h0 : ((s.decRef i).buf i).refcnt = 0
    · rw [if_pos h0, if_pos (hzero.mpr h0)]
      refine ⟨h1.ring.toFront (h1.all i), fun j => ?_, h1.buf⟩
      exact (List.perm_cons_erase (h1.all i)).mem_iff.mp (h1.all j)
    · rw [if_neg h0, if_neg fun hm => h0 (hzero.mp hm)]
      exact ⟨h1.ring, h1.all, h1.buf⟩
  exact hmove _ (h.decRef hpos)

/-- One step: the section of the sequential cache brings the thread to the same place. -/
theorem step (h : s.Is m) (hinv : Inv s) (hok : PairedUnpins s t a)
    (hs : Bcache.step s t a = some (.ok s')) :
    post (nextSection t (s.thread t) a) m
      (fun st m' => s'.thread = update s.thread t st ∧ s'.Is m') never := by
  obtain ⟨-, hpaired, hmax⟩ := hok
  obtain ⟨-, -, refs, hc⟩ := hinv
  unfold Bcache.step at hs
  cases ht : s.thread t with
  | outside =>
    have hsame : s.thread = update s.thread t .outside := by rw [← ht, update_eq_self]
    rw [ht] at hs
    cases a with
    | bget dev blockno => exact post_bind_of (h.bget hmax hs) fun _ _ hq => hq
    | brelse i =>
      have hs := Option.some.inj hs
      rw [State.brelse] at hs
      split_ifs at hs with hl
      obtain rfl := Except.ok.inj hs
      simp only [nextSection, brelseUnlock, holdingsleep, post_bind, post_get, post_pure,
        (h.buf i).lock, hl, beq_self_eq_true, Bool.not_true, Bool.false_eq_true, if_false]
      exact ⟨rfl, h.setBuf rfl rfl fun hi => ⟨hi.block, hi.refcnt, rfl⟩⟩
    | bpin i =>
      obtain rfl := Except.ok.inj (Option.some.inj hs)
      refine ⟨hsame, h.setBuf rfl rfl fun hi => ⟨hi.block, ?_, hi.lock⟩⟩
      rw [toNat_succ (hmax i), ← hi.refcnt]
    | bunpin i =>
      obtain rfl := Except.ok.inj (Option.some.inj hs)
      have hdec := h.decRef (hc.pos_of_pins (hpaired i rfl))
      exact ⟨(decRef_fields s i).2.trans hsame, hdec.ring, hdec.all, hdec.buf⟩
    | goOn => cases hs
  | sleeps i =>
    rw [ht] at hs
    cases a with
    | goOn =>
      obtain ⟨hl, hs⟩ := Option.ite_none_right_eq_some.mp hs
      obtain rfl := Except.ok.inj (Option.some.inj hs)
      simp only [nextSection, Xv6.acquiresleep, post_bind, post_get, (h.buf i).lock, hl]
      exact ⟨rfl, h.setBuf rfl rfl fun hi => ⟨hi.block, hi.refcnt, rfl⟩⟩
    | _ => cases hs
  | releases i =>
    rw [ht] at hs
    cases a with
    | goOn =>
      obtain rfl := Except.ok.inj (Option.some.inj hs)
      apply post_bind_of (h.unref t (hc.pos_of_mem (hc.releases t i ht).1))
      intro _ _ h'
      exact ⟨(unref_fields s t i).2.1, h'⟩
    | _ => cases hs

end State.Is

/-- The threads go through their sections with the list. -/
def Sections : (ℕ → Status) × Machine → (ℕ → Status) × Machine → Prop :=
  ReflTransGen fun c c' =>
    ∃ t a st, nextSection t (c.1 t) a c.2 = .ok st c'.2 ∧ c'.1 = update c.1 t st

/-- Every run of the threads with the ring is a run with the list, and whatever a thread does next
with the ring, its section does with the list. -/
theorem ring_refines_list (d : ℕ → Block) (hr : Run PairedUnpins s) :
    (∃ m, Sections (fun _ => .outside, boot d) (s.thread, m) ∧ s.Is m) ∧
    ∀ m, s.Is m → ∀ t a s', PairedUnpins s t a → Bcache.step s t a = some (.ok s') →
      post (nextSection t (s.thread t) a) m
        (fun st m' => s'.thread = update s.thread t st ∧ s'.Is m') (fun _ _ => False) := by
  refine ⟨?_, fun m h t a s' hok hs => h.step hr.inv hok hs⟩
  induction hr with
  | start =>
    have hstart : Ordered (binit : State ℕ) _ := Ordered.binit
    exact ⟨boot d, .refl, hstart.ring, hstart.all, fun i => ⟨⟨rfl, rfl⟩, rfl, rfl⟩⟩
  | step hr hok hs ih =>
    obtain ⟨m, hreach, h⟩ := ih
    obtain ⟨st, m', hrun, hst, h'⟩ := exists_ok (h.step hr.inv hok hs)
    exact ⟨m', hreach.tail ⟨_, _, st, hrun, hst⟩, h'⟩

/-- Thread 0 takes block 7 and releases it, and the buffer comes to the front. -/
theorem ring_refines_list_released : ∃ s m, Run PairedUnpins s ∧ s.links.next none = some 0 ∧
    s.find 1 7 = some (.cached 0) ∧
    Sections (fun _ => .outside, boot fun _ => zeroBlock) (s.thread, m) ∧ s.Is m ∧
    (m.buf 0).blockno = 7 := by
  have hrun : ∃ s : State ℕ, Run PairedUnpins s ∧ s.links.next none = some 0 ∧
      s.find 1 7 = some (.cached 0) ∧ (s.buf 0).blockno = 7 := by
    refine ⟨_, .step (t := 0) (a := .goOn) (.step (t := 0) (a := .brelse 0)
      (.step (t := 0) (a := .goOn) (.step (t := 0) (a := .bget 1 7) .start ⟨nofun, nofun, ?_⟩ rfl)
        ⟨nofun, nofun, ?_⟩ rfl) ⟨nofun, nofun, ?_⟩ rfl) ⟨nofun, nofun, ?_⟩ rfl, rfl, rfl, rfl⟩
    all_goals decide +kernel
  obtain ⟨s, hr, hfront, hfind, hno⟩ := hrun
  obtain ⟨m, hreach, h⟩ := (ring_refines_list (fun _ => zeroBlock) hr).1
  refine ⟨s, m, hr, hfront, hfind, hreach, h, ?_⟩
  rw [(h.buf 0).block.2, hno]
  rfl

end Xv6.Bcache
