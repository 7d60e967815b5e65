import Xv6.FsStorage
import Xv6.LogCapacity
import Xv6.ProcTable

/-! Whether the buffer cache can run out of buffers: there are more processes than buffers. -/
namespace Xv6
open StateOutcome Relation

/-- The log keeps the block in the cache: it is in the header, and a commit has not installed it. -/
def OpState.Pinned (s : OpState) (b : ℕ) : Prop :=
  b ∈ s.m.log.lh ∧ ∀ p x, s.op p = .commits x → b ∈ x.pins s.m.log.lh

theorem OpState.Pins.mem_iff {s : OpState} {pins : List ℕ} (h : s.Pins pins) (b : ℕ) :
    b ∈ pins ↔ s.Pinned b := by
  by_cases hc : ∃ p x, s.op p = .commits x
  · obtain ⟨p, x, hp⟩ := hc
    rw [h.commits p x hp]
    constructor
    · intro hb
      refine ⟨(x.pins_sublist _).subset hb, fun q y hq => ?_⟩
      rw [← h.commits q y hq, h.commits p x hp]
      exact hb
    · exact fun hb => hb.2 p x hp
  · rw [h.idle fun p x hp => hc ⟨p, x, hp⟩]
    exact ⟨fun hb => ⟨hb, fun p x hp => absurd ⟨p, x, hp⟩ hc⟩, And.left⟩

/-- How many buffers have a reference count that is not 0. -/
def Machine.held (m : Machine) : ℕ := (Finset.univ.filter fun i => (m.buf i).refcnt ≠ 0).card

namespace GroupState

variable {s : GroupState}

def Cached (s : GroupState) (b : ℕ) : Prop :=
  ∃ i, (s.ops.m.buf i).dev = ROOTDEV ∧ (s.ops.m.buf i).blockno = b

open Classical in
/-- The buffers that processes refer to, and those that the log has pinned. -/
noncomputable def inUse (s : GroupState) : Finset (Fin NBUF) := Finset.univ.filter fun i =>
  i ∈ s.refs.map Prod.snd ∨
    (s.ops.m.buf i).dev = ROOTDEV ∧ s.ops.Pinned (s.ops.m.buf i).blockno

instance (b : ℕ) : Decidable (s.Cached b) := inferInstanceAs (Decidable (∃ _, _))

/-- What a buffer is in use for is what its reference count counts. -/
theorem mem_inUse (h : GroupInv s) (i : Fin NBUF) : i ∈ s.inUse ↔ (s.ops.m.buf i).refcnt ≠ 0 := by
  obtain ⟨pins, hpins, hrefs⟩ := h.refs
  have hcount := hrefs.count i
  have href : i ∈ s.refs.map Prod.snd ↔ 0 < (s.refs.map Prod.snd).count i :=
    List.count_pos_iff.symm
  simp only [inUse, Finset.mem_filter, Finset.mem_univ, true_and, ← hpins.mem_iff, href]
  constructor
  · rintro (href | hpin)
    · omega
    · rw [if_pos hpin] at hcount
      omega
  · intro hne
    by_contra hnone
    rw [not_or] at hnone
    rw [if_neg hnone.2] at hcount
    omega

theorem card_held (h : GroupInv s) : s.inUse.card = s.ops.m.held := by
  congr 1
  ext i
  simp [mem_inUse h]

theorem card_inUse (h : GroupInv s) : s.inUse.card < NBUF ↔ ∃ i, (s.ops.m.buf i).refcnt = 0 := by
  have hfull : s.inUse.card = NBUF ↔ s.inUse = Finset.univ := by
    rw [← Finset.card_eq_iff_eq_univ, Fintype.card_fin]
  have hle : s.inUse.card ≤ NBUF := (Finset.card_le_univ _).trans (Fintype.card_fin NBUF).le
  rw [hle.lt_iff_ne, Ne, hfull, Finset.eq_univ_iff_forall]
  simp [mem_inUse h]

end GroupState

/-- `bget` looks for the block, and then for a buffer that nobody refers to. -/
theorem bgetRef_found (m : Machine) (dev b : ℕ) :
    post (bgetRef dev b) m
      (fun _ _ => (∃ i, (m.buf i).dev = dev ∧ (m.buf i).blockno = b) ∨ ∃ i, (m.buf i).refcnt = 0)
      (fun _ _ => True) := by
  simp only [bgetRef, post_bind, post_get]
  cases hfind : m.lru.find? (cachedIn m dev b) with
  | some i => exact .inl ⟨i, (cachedIn_iff m dev b i).mp (List.find?_some hfind)⟩
  | none =>
    cases hfree : m.lru.reverse.find? fun i => (m.buf i).refcnt == 0 with
    | some i => exact .inr ⟨i, by simpa using List.find?_some hfree⟩
    | none => trivial

/-- `bget` finds a buffer exactly if the block is cached, or fewer than `NBUF` buffers are pinned or
referred to. -/
theorem bget_finds {s₀ s : GroupState} (hstart : s₀.Start)
    (hrun : ReflTransGen GroupState.Step s₀ s) (b : ℕ) :
    (∃ i m', bgetRef ROOTDEV b s.ops.m = .ok i m') ↔ s.Cached b ∨ s.inUse.card < NBUF := by
  have hinv := hstart.run hrun
  obtain ⟨pins, -, hrefs⟩ := hinv.refs
  rw [GroupState.card_inUse hinv]
  constructor
  · rintro ⟨i, m', hget⟩
    have hfound := post_ok (bgetRef_found s.ops.m ROOTDEV b) hget
    exact hfound
  · intro hfound
    cases hget : bgetRef ROOTDEV b s.ops.m with
    | ok i m' => exact ⟨i, m', rfl⟩
    | error e m' =>
      obtain ⟨hnone, hmiss⟩ := post_error (hrefs.bgetRef_post 0 b) hget
      rcases hfound with ⟨i, hd, hb⟩ | ⟨i, hi⟩
      · exact absurd hb (hmiss i hd)
      · exact absurd hi (hnone i)

/-- Process 0 has logged blocks 100 and 101 and commits. Process 40 reads block 100, and others read
as many blocks of their own as leave one buffer. -/
def nearlyFull : List (ℕ × GroupCall) :=
  (0, .op .beginOp) :: logBlock 0 100 1 ++ (0, .release 1) :: logBlock 0 101 2 ++
    [(0, .release 2), (0, .op .endOp), (0, .op .commit), (40, .find 100)] ++
    (List.range 27).map fun k => (k+1, .find (200+k))

/-- With one buffer left `bget` finds one for every block. After that, it finds those that are cached
and no other. -/
theorem bget_finds_one : ∃ s s', ReflTransGen GroupState.Step GroupState.empty s ∧
    s.ops.op 0 = .commits (.copy 0) ∧ s.ops.m.log.lh = [100, 101] ∧ s.refs.length = 28 ∧
    s.inUse.card = 29 ∧ (∃ i m', bgetRef ROOTDEV 300 s.ops.m = .ok i m') ∧
    s.step 41 (.find 300) = some s' ∧ s'.inUse.card = 30 ∧
    (∃ i m', bgetRef ROOTDEV 100 s'.ops.m = .ok i m') ∧
    ¬∃ i m', bgetRef ROOTDEV 301 s'.ops.m = .ok i m' := by
  have hrun : (GroupState.empty.run (fun _ => true) nearlyFull).map (fun s =>
      (s.ops.op 0, s.ops.m.log.lh, s.refs.length, s.ops.m.held)) =
      some (.commits (.copy 0), [100, 101], 28, 29) := by
    decide +kernel
  have hnext : ((GroupState.empty.run (fun _ => true) nearlyFull).bind (·.step 41 (.find 300))).map
      (fun s => (s.ops.m.held, decide (s.Cached 100), decide (s.Cached 301))) =
      some (30, true, false) := by
    decide +kernel
  obtain ⟨s, hs, hends⟩ := Option.map_eq_some_iff.mp hrun
  rw [hs, Option.bind_some] at hnext
  obtain ⟨s', hstep, hends'⟩ := Option.map_eq_some_iff.mp hnext
  simp only [Prod.mk.injEq, decide_eq_true_eq, decide_eq_false_iff_not] at hends hends'
  obtain ⟨hop, hlh, hrefs, hheld⟩ := hends
  obtain ⟨hheld', hcached, hmiss⟩ := hends'
  have hreach := GroupState.run_steps (fun _ _ hstep _ => hstep) hs
  have hreach' := hreach.tail ⟨41, .find 300, hstep⟩
  rw [← GroupState.card_held (empty_start.run hreach)] at hheld
  rw [← GroupState.card_held (empty_start.run hreach')] at hheld'
  refine ⟨s, s', hreach, hop, hlh, hrefs, hheld, ?_, hstep, hheld', ?_, ?_⟩
  · rw [bget_finds empty_start hreach 300, hheld]
    exact .inr (by decide)
  · exact (bget_finds empty_start hreach' 100).mpr (.inl hcached)
  · rw [bget_finds empty_start hreach' 301, hheld', not_or]
    exact ⟨hmiss, by decide⟩

/-- A read of a file whose first block is there begins with `bget` for that block. -/
theorem readi_finds (sb : Superblock) (p : ℕ) (d : Dinode) (copied : ℕ → Bool) {off n : ℕ}
    (hoff : off < NDIRECT*BSIZE) (hn : 0 < n) (hend : off+n ≤ d.size) (hsize : d.size < 2^32)
    {k : Fin (NDIRECT+1)} (hk : k.val = off/BSIZE) (hblock : d.addrs k ≠ 0) :
    ∃ rest : Fin NBUF → Kern (Option ℕ × (ℕ → UInt8) × Dinode), readi sb p d copied off n = (do
        let i ← bgetRef ROOTDEV (d.addrs k)
        acquiresleep p i
        breadFill i
        rest i) := by
  have hlt := Nat.div_lt_of_lt_mul (by rw [Nat.mul_comm]; exact hoff)
  have hbmap : bmap sb p d (off/BSIZE) = pure (d.addrs k, d) := by
    rw [bmap, dif_pos hlt, bmapSlot]
    have hkk : (⟨off/BSIZE, Nat.lt_succ_of_lt hlt⟩ : Fin (NDIRECT+1)) = k := Fin.ext hk.symm
    rw [hkk, if_neg hblock]
  obtain ⟨n, rfl⟩ := Nat.exists_eq_succ_of_ne_zero hn.ne'
  rw [readi, if_neg (by
    omega), if_neg (by omega)]
  rw [readLoop, hbmap, pure_bind]
  dsimp only
  rw [if_neg hblock, bread_eq]
  simp only [bind_assoc, pure_bind]
  exact ⟨_, rfl⟩

theorem panicOf_bind {α β : Type} {x : Kern α} (f : α → Kern β) {m : Machine} {msg : String}
    (h : panicOf x m = some msg) : panicOf (x >>= f) m = some msg := by
  unfold panicOf at h ⊢
  cases hx : x m with
  | ok a m' =>
    rw [hx] at h
    cases h
  | error e m' =>
    have hbind : (x >>= f) m = .error e m' := by
      change EStateM.bind x f m = _
      rw [EStateM.bind, hx]
    rw [hx] at h
    rw [hbind]
    cases e with
    | panic msg' => exact h
    | asleep => cases h

def blockFile (b : ℕ) : Dinode :=
  { Dinode.zero with type := T_FILE, nlink := 1, size := BSIZE, addrs := fun k => if k = 0 then b else 0 }

/-- As many processes as there are buffers each read a file of their own, and wait for the disk. -/
def readers : List (ℕ × GroupCall) := (List.range NBUF).map fun k => (k, .find (100+k))

/-- One more process that reads a file of its own is too many. -/
theorem readers_exhaust_cache : NBUF < NPROC ∧ GroupState.empty.Start ∧
    (∀ sb k copied, ∃ rest : Fin NBUF → Kern (Option ℕ × (ℕ → UInt8) × Dinode),
      readi sb k (blockFile (100+k)) copied 0 1 = (do
        let i ← bgetRef ROOTDEV (100+k)
        acquiresleep k i
        breadFill i
        rest i)) ∧
    ∃ s, GroupState.empty.run (fun _ => true) readers = some s ∧
      ReflTransGen GroupState.Step GroupState.empty s ∧ s.ops.m.log.lh = [] ∧
      ∀ sb copied, panicOf (readi sb NBUF (blockFile (100+NBUF)) copied 0 1) s.ops.m =
        some "bget: no buffers" := by
  have hread : ∀ sb k copied, ∃ rest : Fin NBUF → Kern (Option ℕ × (ℕ → UInt8) × Dinode),
      readi sb k (blockFile (100+k)) copied 0 1 = (do
        let i ← bgetRef ROOTDEV (100+k)
        acquiresleep k i
        breadFill i
        rest i) := by
    intro sb k copied
    exact readi_finds sb k (blockFile (100+k)) copied (by decide) Nat.one_pos (by simp [blockFile])
      (by change BSIZE < 2^32; decide) (k := 0) rfl (by simp [blockFile])
  have hrun : (GroupState.empty.run (fun _ => true) readers).map (fun s =>
      (s.ops.m.log.lh, panicOf (bgetRef ROOTDEV (100+NBUF)) s.ops.m)) =
      some ([], some "bget: no buffers") := by
    decide +kernel
  obtain ⟨s, hs, hends⟩ := Option.map_eq_some_iff.mp hrun
  obtain ⟨hlh, hpanic⟩ := Prod.mk.inj hends
  refine ⟨by decide, empty_start, hread, s, hs,
    GroupState.run_steps (fun _ _ hstep _ => hstep) hs, hlh, fun sb copied => ?_⟩
  obtain ⟨rest, hrest⟩ := hread sb NBUF copied
  rw [hrest]
  exact panicOf_bind _ hpanic

end Xv6
