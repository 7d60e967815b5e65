import Xv6.GroupCommit

/-! Who refers to the buffers: a process from `bget` to `brelse`, also while it waits for the lock,
and the log to every block in its header. Others can be recycled. -/
namespace Xv6
open StateOutcome Function

/-- The part of `bget` under `bcache.lock`. -/
def bgetRef (dev blockno : ℕ) : Kern (Fin NBUF) := do
  let m ← get
  match m.lru.find? (cachedIn m dev blockno) with
  | some i =>
    modBuf i fun b => { b with refcnt := b.refcnt+1 }
    return i
  | none =>
    match m.lru.reverse.find? fun i => (m.buf i).refcnt == 0 with
    | some i =>
      modBuf i fun b => { b with dev := dev, blockno := blockno, valid := false, refcnt := 1 }
      return i
    | none => throw (.panic "bget: no buffers")

/-- What `bread` does with a buffer that it has locked. -/
def breadFill (i : Fin NBUF) : Kern Unit := do
  let m ← get
  if !(m.buf i).valid then
    virtioDiskRead i
    modBuf i fun b => { b with valid := true }

theorem bread_eq (p dev b : ℕ) : bread p dev b = (do
    let i ← bgetRef dev b
    acquiresleep p i
    breadFill i
    return i) := by
  have hget : bget p dev b = (do
      let i ← bgetRef dev b
      acquiresleep p i
      return i) := by
    simp only [bget, bgetRef, bind_assoc]
    refine bind_congr fun m => ?_
    cases m.lru.find? (cachedIn m dev b) with
    | some i => simp only [bind_assoc, pure_bind]
    | none =>
      cases m.lru.reverse.find? fun i => (m.buf i).refcnt == 0 with
      | some i => simp only [bind_assoc, pure_bind]
      | none => rfl
  rw [bread, hget]
  simp only [bind_assoc, pure_bind, breadFill]
  refine bind_congr fun i => bind_congr fun _ => bind_congr fun m => ?_
  split_ifs <;> simp

theorem SameLog.bgetRef (dev b : ℕ) : SameLog (Xv6.bgetRef dev b) := by
  refine bind get fun m => ?_
  cases m.lru.find? (cachedIn m dev b) with
  | some i => exact bind (modBuf i _) fun _ => pure i
  | none =>
    cases m.lru.reverse.find? fun i => (m.buf i).refcnt == 0 with
    | some i => exact bind (modBuf i _) fun _ => pure i
    | none => exact throw _

theorem SameLog.breadFill (i : Fin NBUF) : SameLog (Xv6.breadFill i) :=
  bind get fun _ => ite (bind (fun _ => rfl) fun _ => modBuf i _) (pure _)

/-- The processes have the references `refs`, and the log those to the blocks `pins`. -/
structure RefsOk (pins : List ℕ) (refs : List (ℕ × Fin NBUF)) (m : Machine) : Prop where
  inList : ∀ i, i ∈ m.lru
  unique : ∀ i j, (m.buf i).dev = ROOTDEV → (m.buf j).dev = ROOTDEV →
    (m.buf i).blockno = (m.buf j).blockno → i = j
  count : ∀ i, (m.buf i).refcnt = (refs.map Prod.snd).count i+
    (if (m.buf i).dev = ROOTDEV ∧ (m.buf i).blockno ∈ pins then 1 else 0)
  pinned : ∀ b ∈ pins, ∃ i, (m.buf i).dev = ROOTDEV ∧ (m.buf i).blockno = b
  dev : ∀ r ∈ refs, (m.buf r.2).dev = ROOTDEV
  locked : ∀ i p, (m.buf i).lock = some p → (p, i) ∈ refs

def NoneFree (m : Machine) : Prop := ∀ i, (m.buf i).refcnt ≠ 0

def HasBuf (m : Machine) (p b : ℕ) (i : Fin NBUF) : Prop :=
  (m.buf i).dev = ROOTDEV ∧ (m.buf i).blockno = b ∧ (m.buf i).lock = some p

namespace RefsOk

variable {pins pins' : List ℕ} {refs refs' : List (ℕ × Fin NBUF)} {m m' : Machine}

variable {i : Fin NBUF} {p b : ℕ}

section
variable (h : RefsOk pins refs m)
include h

/-- One buffer changes, with the references to it and possibly the pin of its block. -/
theorem setBuf {nb : Buf} (hdev : nb.dev = ROOTDEV)
    (hone : ∀ j, j ≠ i → (m.buf j).dev = ROOTDEV → (m.buf j).blockno ≠ nb.blockno)
    (hcount : nb.refcnt = (refs'.map Prod.snd).count i+(if nb.blockno ∈ pins' then 1 else 0))
    (hcounts : ∀ j, j ≠ i → (refs'.map Prod.snd).count j = (refs.map Prod.snd).count j)
    (hpins : ∀ c, c ≠ nb.blockno → (c ∈ pins' ↔ c ∈ pins))
    (hpin : (m.buf i).dev = ROOTDEV → (m.buf i).blockno ∈ pins → nb.blockno = (m.buf i).blockno)
    (hrefs : ∀ r ∈ refs', r.2 = i ∨ r ∈ refs) (hlock : ∀ p, nb.lock = some p → (p, i) ∈ refs')
    (hlocks : ∀ p j, j ≠ i → (p, j) ∈ refs → (p, j) ∈ refs') : RefsOk pins' refs' (m.setBuf i nb) := by
  have hself : (m.setBuf i nb).buf i = nb := update_self ..
  have hother (j : Fin NBUF) (hj : j ≠ i) : (m.setBuf i nb).buf j = m.buf j :=
    update_of_ne hj ..
  refine ⟨h.inList, fun j k hj hk hb => ?_, fun j => ?_, fun b hb => ?_, fun r hr => ?_,
    fun j p hj => ?_⟩
  · by_cases hji : j = i <;> by_cases hki : k = i
    · rw [hji, hki]
    · rw [hji, hself, hother k hki] at hb
      rw [hother k hki] at hk
      exact absurd hb.symm (hone k hki hk)
    · rw [hki, hself, hother j hji] at hb
      rw [hother j hji] at hj
      exact absurd hb (hone j hji hj)
    · rw [hother j hji] at hj hb
      rw [hother k hki] at hk hb
      exact h.unique j k hj hk hb
  · by_cases hji : j = i
    · rw [hji, hself, hcount]
      simp only [hdev, true_and]
    · have hiff := and_congr_right fun hj => hpins _ (hone j hji hj)
      rw [hother j hji, hcounts j hji, h.count j]
      simp only [hiff]
  · by_cases hbn : b = nb.blockno
    · exact ⟨i, by rw [hself]; exact ⟨hdev, hbn.symm⟩⟩
    · have hb' := (hpins b hbn).mp hb
      obtain ⟨j, hd, hj⟩ := h.pinned b hb'
      have hji : j ≠ i := by
        rintro rfl
        exact hbn (hj.symm.trans (hpin hd (hj ▸ hb')).symm)
      exact ⟨j, by rw [hother j hji]; exact ⟨hd, hj⟩⟩
  · by_cases hri : r.2 = i
    · rw [hri, hself]
      exact hdev
    · rw [hother _ hri]
      exact h.dev r ((hrefs r hr).resolve_left hri)
  · by_cases hji : j = i
    · rw [hji, hself] at hj
      rw [hji]
      exact hlock p hj
    · rw [hother j hji] at hj
      exact hlocks p j hji (h.locked j p hj)

theorem setData (hi : (m.buf i).dev = ROOTDEV) {nb : Buf}
    (hdev : nb.dev = (m.buf i).dev) (hblock : nb.blockno = (m.buf i).blockno)
    (hcount : nb.refcnt = (m.buf i).refcnt) (hlock : ∀ p, nb.lock = some p → (p, i) ∈ refs) :
    RefsOk pins refs (m.setBuf i nb) := by
  refine h.setBuf (hdev.trans hi) (fun j hj hd hb => hj ?_) ?_ (fun _ _ => rfl)
    (fun _ _ => Iff.rfl) (fun _ _ => hblock) (fun _ hr => .inr hr) hlock fun _ _ _ hr => hr
  · exact h.unique j i hd hi (hb.trans hblock)
  · rw [hcount, h.count i, hblock]
    simp only [hi, true_and]

theorem with_lru (lru : List (Fin NBUF)) (hl : ∀ j, j ∈ m.lru → j ∈ lru) :
    RefsOk pins refs { m with lru := lru } :=
  ⟨fun i => hl i (h.inList i), h.unique, h.count, h.pinned, h.dev, h.locked⟩

theorem congr (hbuf : m'.buf = m.buf) (hlru : m'.lru = m.lru) :
    RefsOk pins refs m' := by
  obtain ⟨buf, lru, log, disk, writes⟩ := m'
  dsimp only at hbuf hlru
  subst hbuf hlru
  exact ⟨h.inList, h.unique, h.count, h.pinned, h.dev, h.locked⟩

/-- While the processes and the log do not refer to all buffers, one is free. -/
theorem free (hlen : pins.length+(refs.map Prod.snd).toFinset.card < NBUF) : ¬NoneFree m := by
  intro hnone
  have hpin (i : Fin NBUF) (hi : i ∉ (refs.map Prod.snd).toFinset) :
      (m.buf i).dev = ROOTDEV ∧ (m.buf i).blockno ∈ pins := by
    have hcount := h.count i
    rw [List.count_eq_zero_of_not_mem (mt List.mem_toFinset.mpr hi)] at hcount
    by_contra hp
    rw [if_neg hp] at hcount
    exact hnone i hcount
  -- Different buffers have different blocks, and there are more buffers left than pins.
  have hinj : Set.InjOn (fun i => (m.buf i).blockno) ((refs.map Prod.snd).toFinsetᶜ : Finset _) := by
    intro i hi j hj hij
    rw [Finset.mem_coe, Finset.mem_compl] at hi hj
    exact h.unique i j (hpin i hi).1 (hpin j hj).1 hij
  have hcard := Finset.card_le_card_of_injOn _
      (fun i hi => List.mem_toFinset.mpr (hpin i (Finset.mem_compl.mp hi)).2) hinj
  rw [Finset.card_compl, Fintype.card_fin] at hcard
  have := List.toFinset_card_le pins
  omega

theorem bgetRef_post (p b : ℕ) :
    post (bgetRef ROOTDEV b) m (fun i m' => RefsOk pins ((p, i) :: refs) m' ∧
      (m'.buf i).blockno = b ∧ (m'.buf i).lock = (m.buf i).lock ∧
      (∀ j, j ≠ i → m'.buf j = m.buf j) ∧ m'.log = m.log)
      (fun _ _ => NoneFree m ∧ ∀ i, (m.buf i).dev = ROOTDEV → (m.buf i).blockno ≠ b) := by
  simp only [bgetRef, post_bind, post_get]
  cases hfind : m.lru.find? (cachedIn m ROOTDEV b) with
  | some i =>
    obtain ⟨hd, hb⟩ := (cachedIn_iff m ROOTDEV b i).mp (List.find?_some hfind)
    refine ⟨?_, ?_, ?_, fun j hj => update_of_ne hj .., rfl⟩
    · refine h.setBuf hd (fun j hj hdj hbj => hj (h.unique j i hdj hd hbj)) ?_ (fun j hj => ?_)
        (fun _ _ => Iff.rfl) (fun _ _ => rfl) (fun r hr => ?_) (fun q hq => ?_)
        fun _ _ _ => List.mem_cons_of_mem _
      · have hi := h.count i
        simp only [hd, true_and] at hi
        rw [List.map_cons, List.count_cons_self]
        dsimp only
        omega
      · rw [List.map_cons, List.count_cons_of_ne (Ne.symm hj)]
      · exact (List.mem_cons.mp hr).imp_left fun he => by rw [he]
      · exact List.mem_cons_of_mem _ (h.locked i q hq)
    · simp only [setBuf_buf, update_self]
      exact hb
    · simp only [setBuf_buf, update_self]
  | none =>
    have hmiss (j : Fin NBUF) (hd : (m.buf j).dev = ROOTDEV) : (m.buf j).blockno ≠ b := by
      intro hb
      exact List.find?_eq_none.mp hfind j (h.inList j) ((cachedIn_iff m ROOTDEV b j).mpr ⟨hd, hb⟩)
    cases hfree : m.lru.reverse.find? fun i => (m.buf i).refcnt == 0 with
    | some i =>
      have hzero : (m.buf i).refcnt = 0 := by simpa using List.find?_some hfree
      have hcount := h.count i
      refine ⟨?_, ?_, ?_, fun j hj => update_of_ne hj .., rfl⟩
      · refine h.setBuf rfl (fun j _ => hmiss j) ?_ (fun j hj => ?_)
          (fun _ _ => Iff.rfl) (fun hd hp => ?_) (fun r hr => ?_) (fun q hq => ?_)
          fun _ _ _ => List.mem_cons_of_mem _
        · have hb : b ∉ pins := by
            intro hb
            obtain ⟨j, hd, hj⟩ := h.pinned b hb
            exact hmiss j hd hj
          rw [List.map_cons, List.count_cons_self, if_neg hb]
          dsimp only
          omega
        · rw [List.map_cons, List.count_cons_of_ne (Ne.symm hj)]
        · rw [if_pos ⟨hd, hp⟩] at hcount
          omega
        · exact (List.mem_cons.mp hr).imp_left fun he => by rw [he]
        · exact List.mem_cons_of_mem _ (h.locked i q hq)
      · simp only [setBuf_buf, update_self]
      · simp only [setBuf_buf, update_self]
    | none =>
      refine ⟨fun i hi => ?_, hmiss⟩
      exact List.find?_eq_none.mp hfree i (List.mem_reverse.mpr (h.inList i)) (by simpa using hi)

theorem acquiresleep_post (hp : (p, i) ∈ refs) :
    post (acquiresleep p i) m (fun _ m' => RefsOk pins refs m' ∧ (m.buf i).lock = none ∧
      m' = m.setBuf i { m.buf i with lock := some p }) (fun e _ => e = .asleep) := by
  simp only [acquiresleep, post_bind, post_get]
  cases hlock : (m.buf i).lock with
  | some q => rfl
  | none =>
    refine ⟨h.setData (h.dev _ hp) rfl rfl rfl fun q hq => ?_, rfl, rfl⟩
    cases hq
    exact hp

theorem breadFill_post (hi : (m.buf i).dev = ROOTDEV) :
    post (breadFill i) m (fun _ m' => RefsOk pins refs m' ∧
      (m'.buf i).blockno = (m.buf i).blockno ∧ (m'.buf i).lock = (m.buf i).lock ∧
      (∀ j, j ≠ i → m'.buf j = m.buf j) ∧ m'.log = m.log) never := by
  simp only [breadFill, post_bind, post_get]
  cases hv : (m.buf i).valid with
  | true => exact ⟨h, rfl, rfl, fun _ _ => rfl, rfl⟩
  | false =>
    simp only [Bool.not_false, ↓reduceIte, virtioDiskRead, modBuf, post_bind, post_modify,
      setBuf_buf, update_self, setBuf_setBuf]
    refine ⟨h.setData hi rfl rfl rfl (h.locked i), trivial, trivial,
      fun j hj => ?_, rfl⟩
    rw [update_of_ne hj, update_of_ne hj]

theorem bread_post (p b : ℕ) :
    post (bread p ROOTDEV b) m (fun i m' => RefsOk pins ((p, i) :: refs) m' ∧ HasBuf m' p b i ∧
      (m.buf i).lock = none ∧ (∀ j, j ≠ i → m'.buf j = m.buf j) ∧ m'.log = m.log)
      (fun e _ => e = .asleep ∨
        NoneFree m ∧ ∀ i, (m.buf i).dev = ROOTDEV → (m.buf i).blockno ≠ b) := by
  rw [bread_eq]
  apply post_bind_of (post_errors (h.bgetRef_post p b) fun _ _ he => .inr he)
  rintro i m1 ⟨h1, hb1, hl1, ho1, hlog1⟩
  apply post_bind_of (post_errors (h1.acquiresleep_post List.mem_cons_self) fun _ _ he => .inl he)
  rintro _ m2 ⟨h2, hnone, rfl⟩
  apply post_bind_of (post_safe (h2.breadFill_post (h2.dev _ List.mem_cons_self)))
  rintro _ m3 ⟨h3, hb3, hl3, ho3, hlog3⟩
  refine ⟨h3, ⟨h3.dev _ List.mem_cons_self, ?_, ?_⟩, hl1 ▸ hnone, fun j hj => ?_, hlog3.trans hlog1⟩
  · rw [hb3, setBuf_buf, update_self]
    exact hb1
  · rw [hl3, setBuf_buf, update_self]
  · rw [ho3 j hj, setBuf_buf, update_of_ne hj, ho1 j hj]

theorem brelse_post (hp : (m.buf i).lock = some p) :
    post (brelse p i) m (fun _ m' => RefsOk pins (refs.erase (p, i)) m' ∧
      (∀ j, j ≠ i → m'.buf j = m.buf j) ∧ m'.log = m.log) never := by
  have hmem := h.locked i p hp
  have hperm := (List.perm_cons_erase hmem).map Prod.snd
  have hcount (j : Fin NBUF) := hperm.count_eq j
  have hd := h.dev _ hmem
  apply post_imp (Xv6.brelse_post m p i hp)
  rintro _ m' ⟨lru, hlru, rfl⟩
  refine ⟨.with_lru ?_ lru hlru, fun j hj => update_of_ne hj .., rfl⟩
  refine h.setBuf hd (fun j hj hdj hbj => hj (h.unique j i hdj hd hbj)) ?_ (fun j hj => ?_)
    (fun _ _ => Iff.rfl) (fun _ _ => rfl) (fun r hr => .inr (List.mem_of_mem_erase hr)) (by simp)
    fun q j hj hr => ?_
  · have hi := h.count i
    rw [hcount i, List.map_cons, List.count_cons_self] at hi
    simp only [hd, true_and] at hi
    dsimp only
    omega
  · rw [hcount j, List.map_cons, List.count_cons_of_ne (Ne.symm hj)]
  · refine (List.mem_erase_of_ne ?_).mpr hr
    exact fun he => hj (Prod.mk.inj he).2

theorem pin (hd : (m.buf i).dev = ROOTDEV) (hb : (m.buf i).blockno ∉ pins) :
    RefsOk (pins ++ [(m.buf i).blockno]) refs
      (m.setBuf i { m.buf i with refcnt := (m.buf i).refcnt+1 }) := by
  refine h.setBuf hd (fun j hj hdj hbj => hj (h.unique j i hdj hd hbj)) ?_ (fun _ _ => rfl)
    (fun c hc => ?_) (fun _ _ => rfl) (fun _ hr => .inr hr) (h.locked i)
    fun _ _ _ hr => hr
  · have hi := h.count i
    simp only [hd, hb, and_false, ↓reduceIte] at hi
    simp only [List.mem_append, List.mem_singleton, or_true, ↓reduceIte]
    omega
  · simp only [List.mem_append, List.mem_singleton, or_iff_left hc]

end

theorem unpin (h : RefsOk (b :: pins) refs m) (hn : b ∉ pins)
    (hd : (m.buf i).dev = ROOTDEV) (hb : (m.buf i).blockno = b) :
    RefsOk pins refs (m.setBuf i { m.buf i with refcnt := (m.buf i).refcnt-1 }) := by
  refine h.setBuf hd (fun j hj hdj hbj => hj (h.unique j i hdj hd hbj)) ?_ (fun _ _ => rfl)
    (fun c hc => ?_) (fun _ _ => rfl) (fun _ hr => .inr hr) (h.locked i)
    fun _ _ _ hr => hr
  · have hi := h.count i
    simp only [hd, hb, List.mem_cons_self, and_self, ↓reduceIte] at hi
    simp only [hb, hn, ↓reduceIte]
    omega
  · simp only [hb] at hc
    simp only [List.mem_cons, hc, false_or]

/-! The steps of a commit. They need one free buffer at most, for the block of the log. -/

theorem bwrite_post (h : RefsOk pins refs m) (hp : (m.buf i).lock = some p) :
    post (bwrite p i) m (fun _ m' => RefsOk pins refs m' ∧ m'.buf = m.buf) never := by
  apply post_imp (Xv6.bwrite_post m p i hp)
  rintro _ m' rfl
  exact ⟨h.congr rfl rfl, rfl⟩

theorem setData_post (h : RefsOk pins refs m) (hi : HasBuf m p b i)
    (v : Block) : post (Xv6.setData i v) m (fun _ m' => RefsOk pins refs m' ∧ HasBuf m' p b i ∧
      ∀ j, j ≠ i → m'.buf j = m.buf j) never := by
  obtain ⟨hd, hb, hl⟩ := hi
  refine ⟨h.setData hd rfl rfl rfl (h.locked i), ?_, fun j hj => update_of_ne hj ..⟩
  simp only [HasBuf, setBuf_buf, update_self]
  exact ⟨hd, hb, hl⟩

theorem ne_of_lock {j : Fin NBUF} (hi : HasBuf m p b i) (hj : (m.buf j).lock = none) :
    i ≠ j := by
  rintro rfl
  rw [hi.2.2] at hj
  cases hj

theorem writeHead_post (h : RefsOk pins refs m) (p : ℕ) (hdev : m.log.dev = ROOTDEV) :
    post (writeHead p) m (fun _ m' => RefsOk pins refs m') (fun e _ => e = .asleep ∨ NoneFree m) := by
  unfold writeHead
  rw [post_bind, post_get, hdev]
  apply post_bind_of (post_errors (h.bread_post p m.log.start) fun _ _ he => he.imp_right And.left)
  rintro i m1 ⟨h1, hi1, -, -, -⟩
  rw [post_bind]
  apply post_bind_of (post_safe (h1.setData_post hi1 _))
  rintro _ m2 ⟨h2, hi2, -⟩
  apply post_bind_of (post_safe (h2.bwrite_post hi2.2.2))
  rintro _ m3 ⟨h3, hbuf⟩
  apply post_imp (post_safe (h3.brelse_post (p := p) (i := i) (by rw [hbuf]; exact hi2.2.2)))
  rintro _ m4 ⟨h4, -, -⟩
  rwa [List.erase_cons_head] at h4

/-- `bread` of a block that the log has pinned does not need a free buffer. -/
theorem bread_pinned_post (h : RefsOk pins refs m) (p : ℕ) (hb : b ∈ pins) :
    post (bread p ROOTDEV b) m (fun i m' => RefsOk pins ((p, i) :: refs) m' ∧ HasBuf m' p b i ∧
      (m.buf i).lock = none ∧ (∀ j, j ≠ i → m'.buf j = m.buf j) ∧ m'.log = m.log)
      (fun e _ => e = .asleep) := by
  refine post_errors (h.bread_post p b) fun e _ he => ?_
  rcases he with he | ⟨-, hmiss⟩
  · exact he
  · obtain ⟨i, hd, hi⟩ := h.pinned b hb
    exact absurd hi (hmiss i hd)

theorem writeLogBlock_post (h : RefsOk pins refs m) (p tail : ℕ) (hdev : m.log.dev = ROOTDEV)
    (hb : b ∈ pins) :
    post (writeLogBlock p tail b) m (fun _ m' => RefsOk pins refs m')
      (fun e _ => e = .asleep ∨ NoneFree m) := by
  unfold writeLogBlock
  rw [post_bind, post_get, hdev]
  apply post_bind_of (post_errors (h.bread_post p _) fun _ _ he => he.imp_right And.left)
  rintro t m1 ⟨h1, ht1, -, -, -⟩
  apply post_bind_of (post_errors (h1.bread_pinned_post p hb) fun _ _ he => .inl he)
  rintro f m2 ⟨h2, hf2, hnone, hother2, -⟩
  have htf : t ≠ f := ne_of_lock ht1 hnone
  have ht2 : HasBuf m2 p (m.log.start+tail+1) t := by
    rw [HasBuf, hother2 t htf]
    exact ht1
  rw [post_bind]
  apply post_bind_of (post_safe (h2.setData_post ht2 _))
  rintro _ m3 ⟨h3, ht3, hother3⟩
  apply post_bind_of (post_safe (h3.bwrite_post ht3.2.2))
  rintro _ m4 ⟨h4, hbuf⟩
  have hf4 : (m4.buf f).lock = some p := by
    rw [hbuf, hother3 f htf.symm]
    exact hf2.2.2
  apply post_bind_of (post_safe (h4.brelse_post hf4))
  rintro _ m5 ⟨h5, hother5, -⟩
  rw [List.erase_cons_head] at h5
  have ht5 : (m5.buf t).lock = some p := by
    rw [hother5 t htf, hbuf]
    exact ht3.2.2
  apply post_imp (post_safe (h5.brelse_post ht5))
  rintro _ m6 ⟨h6, -, -⟩
  rwa [List.erase_cons_head] at h6

theorem installBlock_post (h : RefsOk (b :: pins) refs m) (p tail : ℕ)
    (hdev : m.log.dev = ROOTDEV) (hb : b ∉ pins) :
    post (installBlock p false tail b) m (fun _ m' => RefsOk pins refs m')
      (fun e _ => e = .asleep ∨ NoneFree m) := by
  unfold installBlock
  rw [post_bind, post_get, hdev]
  apply post_bind_of (post_errors (h.bread_post p _) fun _ _ he => he.imp_right And.left)
  rintro l m1 ⟨h1, hl1, -, -, -⟩
  apply post_bind_of (post_errors (h1.bread_pinned_post p List.mem_cons_self) fun _ _ he => .inl he)
  rintro d m2 ⟨h2, hd2, hnone, hother2, -⟩
  have hld : l ≠ d := ne_of_lock hl1 hnone
  rw [post_bind]
  apply post_bind_of (post_safe (h2.setData_post hd2 _))
  rintro _ m3 ⟨h3, hd3, hother3⟩
  apply post_bind_of (post_safe (h3.bwrite_post hd3.2.2))
  rintro _ m4 ⟨h4, hbuf⟩
  -- The log's reference is gone, and those that this process has taken go next.
  have hd4 : HasBuf m4 p b d := by rwa [HasBuf, hbuf]
  have h5 := h4.unpin hb hd4.1 hd4.2.1
  have hl5 : ((m4.setBuf d { m4.buf d with refcnt := (m4.buf d).refcnt-1 }).buf l).lock = some p := by
    rw [setBuf_buf, update_of_ne hld, hbuf, hother3 l hld, hother2 l hld]
    exact hl1.2.2
  apply post_bind_of (post_safe (h5.brelse_post hl5))
  rintro _ m6 ⟨h6, hother6, -⟩
  have hne : (p, d) ≠ (p, l) := fun he => hld (Prod.mk.inj he).2.symm
  rw [List.erase_cons_tail (by simpa using hne), List.erase_cons_head] at h6
  have hd6 : (m6.buf d).lock = some p := by
    rw [hother6 d hld.symm, setBuf_buf, update_self]
    exact hd4.2.2
  apply post_imp (post_safe (h6.brelse_post hd6))
  rintro _ m7 ⟨h7, -, -⟩
  rwa [List.erase_cons_head] at h7

theorem logWrite_post (h : RefsOk m.log.lh refs m) (hd : (m.buf i).dev = ROOTDEV) :
    post (logWrite i) m (fun _ m' => RefsOk m'.log.lh refs m')
      (fun _ _ => m.log.lh.length ≥ LOGBLOCKS ∨ m.log.outstanding < 1) := by
  unfold logWrite
  rw [post_bind, post_get]
  by_cases hfull : m.log.lh.length ≥ LOGBLOCKS
  · rw [if_pos hfull]
    exact .inl hfull
  by_cases hout : m.log.outstanding < 1
  · rw [if_neg hfull, if_pos hout]
    exact .inr hout
  rw [if_neg hfull, if_neg hout]
  split_ifs with hb
  · exact h
  · exact (h.pin hd hb).congr rfl rfl

end RefsOk

end Xv6
