import Xv6.LogFrame
import Xv6.LogCrash

/-! The buffer cache and the log as one block array, for any number of processes. The steps of a
commit interleave with everything else that the locks allow. -/
namespace Xv6
open StateOutcome Relation Function

/-- Where the process that commits stands: copying `rest` to the log from entry `tail` on,
installing it, or at the end of `end_op`. -/
inductive CommitPc
  | idle
  | copy (tail : ℕ) (rest : List ℕ)
  | install (tail : ℕ) (rest : List ℕ)
  | finish

structure CacheState where
  m : Machine
  pc : CommitPc
  /-- The buffers that were modified since they were last passed to `log_write`. -/
  dirty : Fin NBUF → Bool
  /-- What was passed to `log_write` so far, in order. -/
  logged : List (ℕ × Block)

/-- The first part of `end_op`, up to the decision to commit. -/
def leaveOp (m : Machine) : Machine × CommitPc :=
  if m.log.outstanding-1 = 0 then
    ({ m with log := { m.log with outstanding := m.log.outstanding-1, committing := true } },
      if m.log.lh.length > 0 then .copy 0 m.log.lh else .finish)
  else
    ({ m with log := { m.log with outstanding := m.log.outstanding-1 } }, .idle)

/-- One step of one process. `reorder` lets `bget` recycle any unused buffer: the order in
which it looks at them is arbitrary. -/
inductive CacheStep (start : ℕ) : CacheState → CacheState → Prop
  | reorder {s} (lru : List (Fin NBUF)) : (∀ i, i ∈ lru) →
      CacheStep start s { s with m := { s.m with lru := lru } }
  | begin {s m'} : beginOp s.m = .ok () m' → CacheStep start s { s with m := m' }
  | read {s m'} (p b : ℕ) (i : Fin NBUF) : bread p ROOTDEV b s.m = .ok i m' →
      CacheStep start s { s with m := m' }
  | modify {s m'} (p : ℕ) (i : Fin NBUF) (v : Block) : (s.m.buf i).lock = some p →
      Home start (s.m.buf i).blockno → setData i v s.m = .ok () m' →
      CacheStep start s { s with m := m', dirty := update s.dirty i true }
  | logWrite {s m'} (p : ℕ) (i : Fin NBUF) : (s.m.buf i).lock = some p →
      Home start (s.m.buf i).blockno → logWrite i s.m = .ok () m' →
      CacheStep start s { s with
        m := m'
        dirty := update s.dirty i false
        logged := s.logged ++ [((s.m.buf i).blockno, (s.m.buf i).data)] }
  | release {s m'} (p : ℕ) (i : Fin NBUF) : s.dirty i = false → brelse p i s.m = .ok () m' →
      CacheStep start s { s with m := m' }
  | leave {s} : 0 < s.m.log.outstanding → s.m.log.committing = false →
      CacheStep start s { s with m := (leaveOp s.m).1, pc := (leaveOp s.m).2 }
  | copy {s m' tail b rest} (p : ℕ) : s.pc = .copy tail (b :: rest) →
      writeLogBlock p tail b s.m = .ok () m' →
      CacheStep start s { s with m := m', pc := .copy (tail+1) rest }
  | commit {s m' tail} (p : ℕ) : s.pc = .copy tail [] → writeHead p s.m = .ok () m' →
      CacheStep start s { s with m := m', pc := .install 0 m'.log.lh }
  | install {s m' tail b rest} (p : ℕ) : s.pc = .install tail (b :: rest) →
      installBlock p false tail b s.m = .ok () m' →
      CacheStep start s { s with m := m', pc := .install (tail+1) rest }
  | clear {s m' tail} (p : ℕ) : s.pc = .install tail [] →
      (do setLh []; writeHead p) s.m = .ok () m' →
      CacheStep start s { s with m := m', pc := .finish }
  | finish {s} : s.pc = .finish →
      CacheStep start s { s with
        m := { s.m with log := { s.m.log with committing := false } }
        pc := .idle }

/-- The blocks that the log keeps in the cache: while a commit installs them they go one
after the other. -/
def CacheState.pins (s : CacheState) : List ℕ :=
  match s.pc with
  | .install _ rest => rest
  | _ => s.m.log.lh

/-- The block array that cache and log implement: the initial disk with everything that was
logged so far. -/
def CacheState.contents (d0 : ℕ → Block) (s : CacheState) : ℕ → Block :=
  writeBlocks d0 s.logged

/-- Entries `0` to `tail` of the log area hold the contents of the blocks in the header. -/
def Copied (start : ℕ) (A : ℕ → Block) (m : Machine) (tail : ℕ) : Prop :=
  ∀ k b, k < tail → m.log.lh[k]? = some b → m.disk (start+k+1) = A b

/-- What holds of a commit that is under way. -/
def CommitInv (start : ℕ) (A : ℕ → Block) (m : Machine) : CommitPc → Prop
  | .idle => True
  | .copy tail rest => m.log.committing = true ∧ m.log.outstanding = 0 ∧
      (∃ copied, m.log.lh = copied ++ rest ∧ copied.length = tail) ∧ Copied start A m tail
  | .install tail rest => m.log.committing = true ∧ m.log.outstanding = 0 ∧
      (∃ done, m.log.lh = done ++ rest ∧ done.length = tail) ∧
      Copied start A m m.log.lh.length
  | .finish => m.log.committing = true ∧ m.log.outstanding = 0 ∧ m.log.lh = []

variable {m m' : Machine} {dirty : Fin NBUF → Bool}

theorem CommitInv.congr {start : ℕ} {A : ℕ → Block} {pc : CommitPc}
    (h : CommitInv start A m pc) (hlog : m'.log = m.log)
    (hdisk : ∀ k, m'.disk (start+k+1) = m.disk (start+k+1)) : CommitInv start A m' pc := by
  have hcopied : ∀ tail, Copied start A m tail → Copied start A m' tail := by
    intro tail hc k b hk hb
    rw [hdisk]
    exact hc k b hk (hlog ▸ hb)
  cases pc with
  | idle => trivial
  | copy | install =>
    simp only [CommitInv, hlog] at h ⊢
    exact ⟨h.1, h.2.1, h.2.2.1, hcopied _ h.2.2.2⟩
  | finish =>
    simp only [CommitInv, hlog] at h ⊢
    exact h

/-- What holds of single buffers: only buffers of the root device are locked, only locked ones
can be dirty, and a block of the log area is cached as it is on the disk. -/
structure BufInv (start : ℕ) (m : Machine) (dirty : Fin NBUF → Bool) : Prop where
  locked : ∀ i, (m.buf i).lock.isSome → (m.buf i).dev = ROOTDEV
  dirty : ∀ i, dirty i = true → (m.buf i).lock.isSome
  logData : ∀ i, (m.buf i).dev = ROOTDEV → ¬Home start (m.buf i).blockno →
    (m.buf i).data = m.disk (m.buf i).blockno

theorem BufInv.step {start : ℕ} {dirty' : Fin NBUF → Bool}
    (h : BufInv start m dirty) (i : Fin NBUF) (hother : ∀ j, j ≠ i → m'.buf j = m.buf j)
    (hdirty : ∀ j, j ≠ i → dirty' j = dirty j) (hdisk : m'.disk = m.disk)
    (hi : (m'.buf i).lock.isSome → (m'.buf i).dev = ROOTDEV)
    (hdi : dirty' i = true → (m'.buf i).lock.isSome)
    (hli : (m'.buf i).dev = ROOTDEV → ¬Home start (m'.buf i).blockno →
      (m'.buf i).data = m.disk (m'.buf i).blockno) : BufInv start m' dirty' := by
  refine ⟨?_, ?_, ?_⟩
  · intro j hj
    by_cases hji : j = i
    · rw [hji] at hj ⊢
      exact hi hj
    · rw [hother j hji] at hj ⊢
      exact h.locked j hj
  · intro j hj
    by_cases hji : j = i
    · rw [hji] at hj ⊢
      exact hdi hj
    · rw [hdirty j hji] at hj
      rw [hother j hji]
      exact h.dirty j hj
  · intro j hj hn
    rw [hdisk]
    by_cases hji : j = i
    · rw [hji] at hj hn ⊢
      exact hli hj hn
    · rw [hother j hji] at hj hn ⊢
      exact h.logData j hj hn

theorem BufInv.keeps {start pos : ℕ} {pins : List ℕ}
    {block disk : ℕ → Block} {v : Block} (h : BufInv start m dirty) (hk : Keeps m [] m')
    (hview : CacheView start pins m' block disk) (hw : Wrote m m' [(pos,v)])
    (hu : Unlocked m pos) : BufInv start m' dirty := by
  refine ⟨?_, ?_, ?_⟩
  · intro j hj
    have hold := hk.unlocked j List.not_mem_nil hj
    rw [(hk.locked j hold).1]
    exact h.locked j hold
  · intro j hj
    rw [(hk.locked j (h.dirty j hj)).1]
    exact h.dirty j hj
  · intro j hj hn
    cases hlock : (m'.buf j).lock with
    | none => exact hview.logData j hj hn hlock
    | some q =>
      have hold := hk.unlocked j List.not_mem_nil (by rw [hlock]; rfl)
      rw [(hk.locked j hold).1] at hj hn ⊢
      have hpos : (m.buf j).blockno ≠ pos := by
        intro he
        rw [hu j hj he] at hold
        exact absurd hold (by simp)
      rw [hw.2, writeBlocks_cons, writeBlocks_nil, writeBlock_other hpos]
      exact h.logData j hj hn

structure CacheInv (start : ℕ) (d0 : ℕ → Block) (s : CacheState) (block disk : ℕ → Block) :
    Prop where
  view : CacheView start s.pins s.m block disk
  clean : ∀ b, Home start b → block b ≠ s.contents d0 b →
    ∃ i, (s.m.buf i).dev = ROOTDEV ∧ (s.m.buf i).blockno = b ∧ s.dirty i = true
  stored : ∀ b, Home start b → b ∉ s.pins → disk b = s.contents d0 b
  bufs : BufInv start s.m s.dirty
  list : LogList start s.m.log.lh
  commit : CommitInv start (s.contents d0) s.m s.pc

namespace CacheInv

variable {start : ℕ} {d0 : ℕ → Block} {s : CacheState} {block disk : ℕ → Block}

/-- The kernel sees the logged contents of every block that nobody has locked. -/
theorem unlocked_clean (h : CacheInv start d0 s block disk) {b : ℕ} (hb : Home start b)
    (hu : Unlocked s.m b) : block b = s.contents d0 b := by
  by_contra hne
  obtain ⟨i,hd,hi,hdirty⟩ := h.clean b hb hne
  have hlock := h.bufs.dirty i hdirty
  rw [hu i hd hi] at hlock
  exact absurd hlock (by simp)

theorem pc_idle (h : CacheInv start d0 s block disk)
    (hc : s.m.log.committing = false ∨ 0 < s.m.log.outstanding) : s.pc = .idle := by
  have hcommit := h.commit
  cases hpc : s.pc with
  | idle => rfl
  | copy | install | finish =>
    rw [hpc] at hcommit
    rcases hc with hc | hc
    · exact absurd (hc.symm.trans hcommit.1) (by simp)
    · exact absurd hcommit.2.1 (by omega)

theorem pins_idle (hpc : s.pc = .idle) : s.pins = s.m.log.lh := by
  rw [CacheState.pins, hpc]

theorem read (h : CacheInv start d0 s block disk) {p b : ℕ} {i : Fin NBUF} {m' : Machine}
    (hf : Fetched s.m p ROOTDEV b i m') :
    ∃ block', CacheInv start d0 { s with m := m' } block' disk ∧
      (Home start b → (m'.buf i).data = s.contents d0 b) := by
  have hlog : m'.log = s.m.log := hf.sameDisk.2.2
  have hdisk := hf.sameDisk.1
  have hu : Unlocked s.m b := hf.was_unlocked (Keeps.refl h.view.inList) h.view
  -- the view afterwards, and what the caller finds in the buffer
  obtain ⟨block',hview,hblock,hdata,hlogd⟩ : ∃ block', CacheView start s.pins m' block' disk ∧
      (∀ e, Home start e → block' e ≠ s.contents d0 e → block e ≠ s.contents d0 e) ∧
      (Home start b → (m'.buf i).data = s.contents d0 b) ∧
      (¬Home start b → (m'.buf i).data = s.m.disk b) := by
    by_cases hb : Home start b
    · rcases h.view.fetched_home hf hb with ⟨hv,hd⟩ | ⟨hp,hv,hd⟩
      · exact ⟨block, hv, fun _ _ hne => hne, fun _ => hd.trans (h.unlocked_clean hb hu),
          (absurd hb)⟩
      · refine ⟨_, hv, ?_, fun _ => hd.trans (h.stored b hb hp), absurd hb⟩
        intro e he hne
        by_cases heb : e = b
        · rw [heb, update_self] at hne
          exact absurd (h.stored b hb hp) hne
        · rwa [update_of_ne heb] at hne
    · obtain ⟨hv,hd⟩ := h.view.fetched_log hf hb
      exact ⟨block, hv, fun _ _ hne => hne, fun hh => absurd hh hb, fun _ => hd⟩
  have hpins : CacheState.pins { s with m := m' } = s.pins := by
    simp only [CacheState.pins, hlog]
  refine ⟨block', ⟨hpins ▸ hview, ?_, hpins ▸ h.stored, ?_, hlog ▸ h.list, ?_⟩, hdata⟩
  · intro e he hne
    obtain ⟨j,hj⟩ := h.clean e he (hblock e he hne)
    have hji : j ≠ i := hf.ne_locked (h.bufs.dirty j hj.2.2)
    exact ⟨j, by rw [hf.other hji]; exact hj⟩
  · refine h.bufs.step i (fun j => hf.other) (fun _ _ => rfl) hdisk
      (fun _ => hf.buffer.1) (fun _ => by simp [hf.buffer.2.2]) ?_
    rw [hf.buffer.2.1]
    exact fun _ => hlogd
  · exact h.commit.congr hlog (fun _ => by rw [hdisk])

end CacheInv
end Xv6
