import Xv6.BioSpec
import Xv6.LogCommit

/-! The invariant that ties buffers, pins and disk together. `block` is what the kernel sees through
the cache, `disk` what the home blocks hold; `pins` are the blocks that the log keeps in the cache. -/
namespace Xv6
open StateOutcome Function

/-- A block outside the log area: header `start`, then `LOGBLOCKS` blocks. -/
def Home (start b : ℕ) : Prop := b < start ∨ start+LOGBLOCKS < b

structure CacheView (start : ℕ) (pins : List ℕ) (m : Machine) (block disk : ℕ → Block) : Prop where
  logDev : m.log.dev = ROOTDEV
  logStart : m.log.start = start
  inList : ∀ i, i ∈ m.lru
  valid : ∀ i, (m.buf i).dev ≠ 0 → (m.buf i).valid = true
  unique : ∀ i j, (m.buf i).dev ≠ 0 → (m.buf i).dev = (m.buf j).dev →
    (m.buf i).blockno = (m.buf j).blockno → i = j
  refs : ∀ i, (m.buf i).refcnt = (if (m.buf i).lock.isSome then 1 else 0)+
    (if (m.buf i).dev = ROOTDEV ∧ (m.buf i).blockno ∈ pins then 1 else 0)
  pinned : ∀ b ∈ pins, ∃ i, (m.buf i).dev = ROOTDEV ∧ (m.buf i).blockno = b
  data : ∀ i, (m.buf i).dev = ROOTDEV → Home start (m.buf i).blockno →
    (m.buf i).data = block (m.buf i).blockno
  logData : ∀ i, (m.buf i).dev = ROOTDEV → ¬Home start (m.buf i).blockno →
    (m.buf i).lock = none → (m.buf i).data = m.disk (m.buf i).blockno
  home : ∀ b, Home start b → m.disk b = disk b

namespace CacheView

variable {start : ℕ} {pins : List ℕ} {m m' : Machine} {block disk : ℕ → Block}

/-- One buffer changes, and with it possibly the pin of its block. It has to be the only one
of its block and to fit the contents the kernel now sees; it must not have held the pin of
another block. -/
theorem setBuf (h : CacheView start pins m block disk) (i : Fin NBUF) (nb : Buf)
    (pins' : List ℕ) (block' : ℕ → Block) (hvalid : nb.valid = true) (hdev : nb.dev = ROOTDEV)
    (hone : ∀ j, j ≠ i → (m.buf j).dev = ROOTDEV → (m.buf j).blockno ≠ nb.blockno)
    (hrefs : nb.refcnt = (if nb.lock.isSome then 1 else 0)+(if nb.blockno ∈ pins' then 1 else 0))
    (hpins : ∀ c, c ≠ nb.blockno → (c ∈ pins' ↔ c ∈ pins))
    (hpin : (m.buf i).dev = ROOTDEV → (m.buf i).blockno ∈ pins → nb.blockno = (m.buf i).blockno)
    (hdata : Home start nb.blockno → nb.data = block' nb.blockno)
    (hlog : ¬Home start nb.blockno → nb.lock = none → nb.data = m.disk nb.blockno)
    (hother : ∀ c, c ≠ nb.blockno → block' c = block c) :
    CacheView start pins' (m.setBuf i nb) block' disk where
  logDev := h.logDev
  logStart := h.logStart
  inList := h.inList
  home := h.home
  valid := by
    intro j hj
    by_cases hji : j = i
    · simpa only [hji, setBuf_buf, update_self] using hvalid
    · simp only [setBuf_buf, update_of_ne hji] at hj ⊢
      exact h.valid j hj
  unique := by
    intro j k hj hd hb
    by_cases hji : j = i <;> by_cases hki : k = i
    · rw [hji, hki]
    · subst hji
      simp only [setBuf_buf, update_self, update_of_ne hki] at hd hb
      exact absurd hb.symm (hone k hki (hd.symm.trans hdev))
    · subst hki
      simp only [setBuf_buf, update_self, update_of_ne hji] at hd hb
      exact absurd hb (hone j hji (hd.trans hdev))
    · simp only [setBuf_buf, update_of_ne hji, update_of_ne hki] at hj hd hb
      exact h.unique j k hj hd hb
  refs := by
    intro j
    by_cases hji : j = i
    · simpa only [hji, setBuf_buf, update_self, hdev, true_and] using hrefs
    · have hiff := and_congr_right fun hj => hpins _ (hone j hji hj)
      simp only [setBuf_buf, update_of_ne hji, hiff]
      exact h.refs j
  pinned := by
    intro b hb
    by_cases hbn : b = nb.blockno
    · exact ⟨i, by simp only [setBuf_buf, update_self]; exact ⟨hdev,hbn.symm⟩⟩
    · obtain ⟨j,hd,hj⟩ := h.pinned b ((hpins b hbn).mp hb)
      have hji : j ≠ i := by
        intro he
        subst he
        exact hbn (hj.symm.trans (hpin hd (hj ▸ (hpins b hbn).mp hb)).symm)
      exact ⟨j, by simp only [setBuf_buf, update_of_ne hji]; exact ⟨hd,hj⟩⟩
  data := by
    intro j hj hb
    by_cases hji : j = i
    · simp only [hji, setBuf_buf, update_self] at hb ⊢
      exact hdata hb
    · simp only [setBuf_buf, update_of_ne hji] at hj hb ⊢
      rw [hother _ (hone j hji hj)]
      exact h.data j hj hb
  logData := by
    intro j hj hb hl
    by_cases hji : j = i
    · simp only [hji, setBuf_buf, update_self] at hb hl ⊢
      exact hlog hb hl
    · simp only [setBuf_buf, update_of_ne hji] at hj hb hl ⊢
      exact h.logData j hj hb hl

section
variable {p b : ℕ} {i : Fin NBUF} (h : CacheView start pins m block disk)
  (hf : Fetched m p ROOTDEV b i m')
include h hf

/-- Fetching a block brings a fresh buffer or locks the one there is. What the caller finds
in it is what `block'` says. -/
theorem of_fetched (block' : ℕ → Block) (hv : Home start b → (m'.buf i).data = block' b)
    (ho : ∀ c, c ≠ b → block' c = block c) :
    CacheView start pins m' block' disk := by
  obtain ⟨hlock,r,v,rfl,hr,hcase⟩ := hf
  simp only [setBuf_buf, update_self] at hv
  have hold := h.refs i
  rw [hlock] at hold
  rcases hcase with ⟨hd,hb,_⟩ | ⟨h0,hmiss,_⟩
  · refine h.setBuf i _ pins block' rfl rfl ?_ ?_ (fun _ _ => Iff.rfl) (fun _ _ => hb.symm) hv
      (by simp) ho
    · intro j hji hj hjb
      exact hji (h.unique j i (by rw [hj]; decide) (hj.trans hd.symm) (hjb.trans hb.symm))
    · simp only [hd, hb, true_and, Option.isSome_none, Bool.false_eq_true, ↓reduceIte] at hold
      simp only [Option.isSome_some, ↓reduceIte]
      omega
  · have hnp : ¬((m.buf i).dev = ROOTDEV ∧ (m.buf i).blockno ∈ pins) := by
      intro hp
      simp only [hp, and_self, ↓reduceIte] at hold
      omega
    have hb : b ∉ pins := by
      intro hb
      obtain ⟨j,hj⟩ := h.pinned b hb
      exact hmiss j hj
    refine h.setBuf i _ pins block' rfl rfl ?_ ?_ (fun _ _ => Iff.rfl)
      (fun hd hp => absurd ⟨hd,hp⟩ hnp) hv (by simp) ho
    · intro j _ hj hjb
      exact hmiss j ⟨hj,hjb⟩
    · simp [hb, h0]

/-- A block of the log area that nobody holds is read as it is on the disk. -/
theorem fetched_log (hb : ¬Home start b) :
    CacheView start pins m' block disk ∧ (m'.buf i).data = m.disk b := by
  refine ⟨h.of_fetched hf block (fun hh => absurd hh hb) (fun _ _ => rfl), ?_⟩
  obtain ⟨hlock,r,v,rfl,hr,⟨hd,hi,hv⟩ | ⟨_,_,hv⟩⟩ := hf
  · simp only [setBuf_buf, update_self, hv, h.valid i (by rw [hd]; decide), ↓reduceIte]
    rw [h.logData i hd (by rwa [hi]) hlock, hi]
  · simpa only [setBuf_buf, update_self] using hv

/-- A home block is read from its buffer, or from the disk when it has none; a pinned block
always has one. -/
theorem fetched_home (hb : Home start b) :
    (CacheView start pins m' block disk ∧ (m'.buf i).data = block b) ∨
    (b ∉ pins ∧ CacheView start pins m' (update block b (disk b)) disk ∧
      (m'.buf i).data = disk b) := by
  obtain ⟨hlock,r,v,rfl,hr,⟨hd,hi,hv⟩ | ⟨h0,hmiss,hv⟩⟩ := hf
  · have hdata : v = block b := by
      rw [hv, h.valid i (by rw [hd]; decide), if_pos rfl, h.data i hd (by rwa [hi]), hi]
    refine Or.inl ⟨h.of_fetched ⟨hlock,r,v,rfl,hr,Or.inl ⟨hd,hi,hv⟩⟩ block ?_ (fun _ _ => rfl), ?_⟩
    · intro _
      simpa only [setBuf_buf, update_self] using hdata
    · simpa only [setBuf_buf, update_self] using hdata
  · have hdata : v = disk b := by rw [hv, h.home b hb]
    refine Or.inr ⟨?_, h.of_fetched ⟨hlock,r,v,rfl,hr,Or.inr ⟨h0,hmiss,hv⟩⟩ _ ?_ ?_, ?_⟩
    · intro hp
      obtain ⟨j,hj⟩ := h.pinned b hp
      exact hmiss j hj
    · intro _
      simpa only [setBuf_buf, update_self] using hdata
    · intro c hc
      exact update_of_ne hc _ _
    · simpa only [setBuf_buf, update_self] using hdata

theorem fetched_pinned (hb : Home start b) (hp : b ∈ pins) :
    CacheView start pins m' block disk ∧ (m'.buf i).data = block b := by
  rcases h.fetched_home hf hb with hh | ⟨hn,_⟩
  · exact hh
  · exact absurd hp hn

end

variable {i : Fin NBUF}

section
variable (h : CacheView start pins m block disk)
include h

theorem only_buffer
    (hi : (m.buf i).dev = ROOTDEV) {j : Fin NBUF} (hji : j ≠ i) (hj : (m.buf j).dev = ROOTDEV) :
    (m.buf j).blockno ≠ (m.buf i).blockno := by
  intro hb
  exact hji (h.unique j i (by rw [hj]; decide) (hj.trans hi.symm) hb)

theorem with_lru (lru : List (Fin NBUF))
    (hl : ∀ j, j ∈ m.lru → j ∈ lru) : CacheView start pins { m with lru := lru } block disk where
  logDev := h.logDev
  logStart := h.logStart
  inList := fun i => hl i (h.inList i)
  valid := h.valid
  unique := h.unique
  refs := h.refs
  pinned := h.pinned
  data := h.data
  logData := h.logData
  home := h.home

theorem with_log (l : Log) (hd : l.dev = m.log.dev)
    (hs : l.start = m.log.start) : CacheView start pins { m with log := l } block disk where
  logDev := hd.trans h.logDev
  logStart := hs.trans h.logStart
  inList := h.inList
  valid := h.valid
  unique := h.unique
  refs := h.refs
  pinned := h.pinned
  data := h.data
  logData := h.logData
  home := h.home

end

section
variable {i : Fin NBUF} (h : CacheView start pins m block disk)
include h

theorem release (hd : (m.buf i).dev = ROOTDEV) (hl : (m.buf i).lock.isSome)
    (hlog : ¬Home start (m.buf i).blockno → (m.buf i).data = m.disk (m.buf i).blockno) :
    CacheView start pins
      (m.setBuf i { m.buf i with lock := none, refcnt := (m.buf i).refcnt-1 }) block disk := by
  have hr := h.refs i
  simp only [hl, hd, true_and, ↓reduceIte] at hr
  refine h.setBuf i _ pins block (h.valid i (by rw [hd]; decide)) hd
    (fun j => h.only_buffer hd) ?_ (fun _ _ => Iff.rfl) (fun _ _ => rfl)
    (h.data i hd) (fun hn _ => hlog hn) (fun _ _ => rfl)
  simp only [Option.isSome_none, Bool.false_eq_true, ↓reduceIte]
  omega

theorem store (v : Block)
    (block' : ℕ → Block) (hd : (m.buf i).dev = ROOTDEV) (hl : (m.buf i).lock.isSome)
    (hv : Home start (m.buf i).blockno → v = block' (m.buf i).blockno)
    (ho : ∀ c, c ≠ (m.buf i).blockno → block' c = block c) :
    CacheView start pins (m.setBuf i { m.buf i with data := v }) block' disk := by
  have hr := h.refs i
  simp only [hd, true_and] at hr
  refine h.setBuf i _ pins block' (h.valid i (by rw [hd]; decide)) hd
    (fun j => h.only_buffer hd) hr (fun _ _ => Iff.rfl) (fun _ _ => rfl) hv ?_ ho
  intro _ hn
  change (m.buf i).lock = none at hn
  simp [hn] at hl

theorem write (ws : List (ℕ × Block)) (hd : (m.buf i).dev = ROOTDEV) (hl : (m.buf i).lock.isSome) :
    CacheView start pins { m with
      disk := writeBlock m.disk ((m.buf i).blockno, (m.buf i).data)
      writes := ws } block (writeBlock disk ((m.buf i).blockno, (m.buf i).data)) where
  logDev := h.logDev
  logStart := h.logStart
  inList := h.inList
  valid := h.valid
  unique := h.unique
  refs := h.refs
  pinned := h.pinned
  data := h.data
  logData := by
    intro j hj hb hn
    have hji : j ≠ i := by
      intro he
      rw [← he] at hl
      change (m.buf j).lock = none at hn
      simp [hn] at hl
    exact (h.logData j hj hb hn).trans (writeBlock_other (h.only_buffer hd hji hj)).symm
  home := by
    intro b hb
    by_cases hbi : b = (m.buf i).blockno
    · simp only [writeBlock, hbi, update_self]
    · exact (writeBlock_other hbi).trans ((h.home b hb).trans (writeBlock_other hbi).symm)

end

theorem congr_disk (h : CacheView start pins m block disk) (disk' : ℕ → Block)
    (he : ∀ b, Home start b → disk b = disk' b) : CacheView start pins m block disk' where
  logDev := h.logDev
  logStart := h.logStart
  inList := h.inList
  valid := h.valid
  unique := h.unique
  refs := h.refs
  pinned := h.pinned
  data := h.data
  logData := h.logData
  home := fun b hb => (h.home b hb).trans (he b hb)

theorem unpin {b : ℕ} (h : CacheView start (b :: pins) m block disk)
    (hb : b ∉ pins) (hd : (m.buf i).dev = ROOTDEV) (hi : (m.buf i).blockno = b) :
    CacheView start pins (m.setBuf i { m.buf i with refcnt := (m.buf i).refcnt-1 })
      block disk := by
  have hr := h.refs i
  simp only [hd, hi, List.mem_cons_self, and_self, ↓reduceIte] at hr
  refine h.setBuf i _ pins block (h.valid i (by rw [hd]; decide)) hd
    (fun j => h.only_buffer hd) ?_ ?_ (fun _ _ => rfl) (h.data i hd)
    (h.logData i hd) (fun _ _ => rfl)
  · simp only [hi, hb, ↓reduceIte]
    omega
  · intro c hc
    simp only [hi] at hc
    simp only [List.mem_cons, hc, false_or]

theorem pin (h : CacheView start pins m block disk)
    (hb : (m.buf i).blockno ∉ pins) (hd : (m.buf i).dev = ROOTDEV) :
    CacheView start (pins ++ [(m.buf i).blockno])
      (m.setBuf i { m.buf i with refcnt := (m.buf i).refcnt+1 }) block disk := by
  have hr := h.refs i
  simp only [hd, hb, and_false, ↓reduceIte] at hr
  refine h.setBuf i _ _ block (h.valid i (by rw [hd]; decide)) hd
    (fun j => h.only_buffer hd) ?_ ?_ (fun _ _ => rfl) (h.data i hd)
    (h.logData i hd) (fun _ _ => rfl)
  · simp only [List.mem_append, List.mem_singleton, or_true, ↓reduceIte]
    omega
  · intro c hc
    simp only [List.mem_append, List.mem_singleton, or_iff_left hc]

theorem congr_block (h : CacheView start pins m block disk) (block' : ℕ → Block)
    (he : ∀ b, Home start b → block b = block' b) : CacheView start pins m block' disk where
  logDev := h.logDev
  logStart := h.logStart
  inList := h.inList
  valid := h.valid
  unique := h.unique
  refs := h.refs
  pinned := h.pinned
  data := fun i hd hb => (h.data i hd hb).trans (he _ hb)
  logData := h.logData
  home := h.home

end CacheView
end Xv6
