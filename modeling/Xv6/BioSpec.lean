import Xv6.BioCache

/-! What each operation of the buffer cache does to the machine. -/
namespace Xv6
open StateOutcome Function

section
variable (m : Machine) (i : Fin NBUF) (b : Buf)

@[simp] theorem setBuf_buf : (m.setBuf i b).buf = update m.buf i b := rfl

@[simp] theorem setBuf_disk : (m.setBuf i b).disk = m.disk := rfl

@[simp] theorem setBuf_writes : (m.setBuf i b).writes = m.writes := rfl

@[simp] theorem setBuf_log : (m.setBuf i b).log = m.log := rfl

@[simp] theorem setBuf_lru : (m.setBuf i b).lru = m.lru := rfl

end

@[simp] theorem setBuf_setBuf (m : Machine) (i : Fin NBUF) (b c : Buf) :
    (m.setBuf i b).setBuf i c = m.setBuf i c := by
  simp [Machine.setBuf]

/-- The disk and the log are untouched: all that an operation that stopped in the buffer
cache promises. -/
def SameDisk (m m' : Machine) : Prop :=
  m'.disk = m.disk ∧ m'.writes = m.writes ∧ m'.log = m.log

/-- `bread` returned buffer `i`, now locked by `p` and valid. Either it was the block's
buffer before, or it was unused and the block had no buffer. -/
def Fetched (m : Machine) (p dev b : ℕ) (i : Fin NBUF) (m' : Machine) : Prop :=
  (m.buf i).lock = none ∧ ∃ r v, m' = m.setBuf i ⟨true, dev, b, some p, r+1, v⟩ ∧
    (m.buf i).refcnt = r ∧
    (((m.buf i).dev = dev ∧ (m.buf i).blockno = b ∧
        v = if (m.buf i).valid then (m.buf i).data else m.disk b) ∨
      (r = 0 ∧ (∀ j, ¬((m.buf j).dev = dev ∧ (m.buf j).blockno = b)) ∧ v = m.disk b))

section
variable {m m' : Machine} {p dev b : ℕ} {i : Fin NBUF} (h : Fetched m p dev b i m')
include h

theorem Fetched.buffer :
    (m'.buf i).dev = dev ∧ (m'.buf i).blockno = b ∧ (m'.buf i).lock = some p := by
  obtain ⟨_,r,v,rfl,_⟩ := h
  simp

theorem Fetched.other {j : Fin NBUF} (hj : j ≠ i) : m'.buf j = m.buf j := by
  obtain ⟨_,r,v,rfl,_⟩ := h
  simp [update_of_ne hj]

theorem Fetched.sameDisk : SameDisk m m' := by
  obtain ⟨_,r,v,rfl,_⟩ := h
  exact ⟨rfl,rfl,rfl⟩

end

theorem Fetched.ne_locked {m m' : Machine} {p dev b : ℕ} {i j : Fin NBUF}
    (h : Fetched m p dev b i m') (hj : (m.buf j).lock.isSome) : j ≠ i := by
  intro he
  rw [he, h.1] at hj
  exact absurd hj (by simp)

theorem cachedIn_iff (m : Machine) (dev b : ℕ) (i : Fin NBUF) :
    cachedIn m dev b i = true ↔ (m.buf i).dev = dev ∧ (m.buf i).blockno = b := by
  simp [cachedIn]

theorem bread_fetched (m : Machine) (p dev b : ℕ) (hl : ∀ i, i ∈ m.lru) :
    post (bread p dev b) m (fun i m' => Fetched m p dev b i m') (fun _ m' => SameDisk m m') := by
  simp only [bread, bget, post_bind, post_get]
  cases hfind : m.lru.find? (cachedIn m dev b) with
  | some i =>
    obtain ⟨hd,hb⟩ := (cachedIn_iff m dev b i).mp (List.find?_some hfind)
    cases hlock : (m.buf i).lock with
    | some q =>
      simp [modBuf, acquiresleep, hlock, SameDisk]
    | none =>
      cases hv : (m.buf i).valid with
      | true =>
        simp only [modBuf, acquiresleep, post_bind, post_modify, post_get, setBuf_buf,
          update_self, hlock, setBuf_setBuf, post_pure, hv]
        exact ⟨hlock, (m.buf i).refcnt, (m.buf i).data, by rw [hd, hb], rfl,
          Or.inl ⟨hd, hb, by simp [hv]⟩⟩
      | false =>
        simp only [modBuf, acquiresleep, post_bind, post_modify, post_get, setBuf_buf,
          update_self, hlock, setBuf_setBuf, post_pure, hv, virtioDiskRead, setBuf_disk,
          Bool.not_false, ↓reduceIte]
        exact ⟨hlock, (m.buf i).refcnt, m.disk b, by rw [hd, hb], rfl,
          Or.inl ⟨hd, hb, by simp [hv]⟩⟩
  | none =>
    have hmiss : ∀ j, ¬((m.buf j).dev = dev ∧ (m.buf j).blockno = b) := by
      intro j hj
      exact List.find?_eq_none.mp hfind j (hl j) ((cachedIn_iff m dev b j).mpr hj)
    cases hfree : m.lru.reverse.find? fun i => (m.buf i).refcnt == 0 with
    | some i =>
      have hr : (m.buf i).refcnt = 0 := by simpa using List.find?_some hfree
      cases hlock : (m.buf i).lock with
      | some q =>
        simp [modBuf, acquiresleep, hlock, SameDisk]
      | none =>
        simp only [modBuf, acquiresleep, post_bind, post_modify, post_get, setBuf_buf,
          update_self, hlock, setBuf_setBuf, post_pure, virtioDiskRead, setBuf_disk,
          Bool.not_false, ↓reduceIte]
        exact ⟨hlock, 0, m.disk b, rfl, hr, Or.inr ⟨rfl, hmiss, rfl⟩⟩
    | none => simp [SameDisk]

/-- `brelse` by the holder: the lock and one reference are gone; the list keeps its members. -/
theorem brelse_post (m : Machine) (p : ℕ) (i : Fin NBUF) (hp : (m.buf i).lock = some p) :
    post (brelse p i) m (fun _ m' => ∃ lru, (∀ j, j ∈ m.lru → j ∈ lru) ∧
      m' = { m.setBuf i { m.buf i with lock := none, refcnt := (m.buf i).refcnt-1 } with
        lru := lru }) never := by
  simp only [brelse, holdingsleep, post_bind, post_get, post_pure, hp, beq_self_eq_true,
    Bool.not_true, Bool.false_eq_true, ↓reduceIte, modBuf, post_modify, setBuf_buf,
    update_self, setBuf_setBuf, setBuf_lru]
  by_cases hz : (m.buf i).refcnt-1 = 0
  · refine ⟨i :: m.lru.erase i, ?_, by simp [hz, Machine.setBuf]⟩
    intro j hj
    by_cases hji : j = i
    · exact hji ▸ List.mem_cons_self
    · exact List.mem_cons_of_mem i ((List.mem_erase_of_ne hji).mpr hj)
  · exact ⟨m.lru, fun _ h => h, by simp [hz, Machine.setBuf]⟩

theorem bwrite_post (m : Machine) (p : ℕ) (i : Fin NBUF) (hp : (m.buf i).lock = some p) :
    post (bwrite p i) m (fun _ m' => m' = { m with
      disk := writeBlock m.disk ((m.buf i).blockno, (m.buf i).data)
      writes := m.writes ++ [((m.buf i).blockno, (m.buf i).data)] }) never := by
  simp [bwrite, holdingsleep, hp, virtioDiskWrite]

end Xv6
