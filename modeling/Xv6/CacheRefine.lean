import Xv6.CacheRun
import Xv6.LogAtomic

/-! The cache and the log refine a block array: a `bread` anywhere in a run returns what was last
logged. -/
namespace Xv6
open StateOutcome Relation Function

/-- `log_write` changes nothing but the reference count of its buffer. -/
theorem logWrite_buf (m : Machine) (i : Fin NBUF) :
    post (logWrite i) m (fun _ m' => (∀ j, j ≠ i → m'.buf j = m.buf j) ∧
      (m'.buf i).data = (m.buf i).data) (fun _ _ => True) := by
  unfold logWrite
  rw [post_bind, post_get]
  split_ifs
  · exact trivial
  · exact trivial
  · exact ⟨fun _ _ => rfl, rfl⟩
  · refine ⟨fun j hj => update_of_ne hj _ _, ?_⟩
    change (update m.buf i _ i).data = _
    rw [update_self]

theorem setData_buf (m : Machine) (i : Fin NBUF) (v : Block) :
    post (setData i v) m (fun _ m' => m'.buf i = { m.buf i with data := v }) (fun _ _ => True) :=
  update_self _ _ _

namespace CacheInv

variable {start : ℕ} {d0 : ℕ → Block} {s : CacheState} {block disk : ℕ → Block}

variable {i : Fin NBUF} {m' : Machine} {p b : ℕ} {rest : List ℕ}

section
variable (h : CacheInv start d0 s block disk)
include h

theorem reorder {lru : List (Fin NBUF)}
    (hl : ∀ i, i ∈ lru) : CacheInv start d0 { s with m := { s.m with lru := lru } } block disk :=
  ⟨h.view.with_lru lru (fun i _ => hl i), h.clean, h.stored,
    ⟨h.bufs.locked, h.bufs.dirty, h.bufs.logData⟩, h.list,
    h.commit.congr rfl (fun _ => rfl)⟩

theorem counters (hpc : s.pc = .idle) (l : Log)
    (pc : CommitPc) (hd : l.dev = s.m.log.dev) (hs : l.start = s.m.log.start)
    (hlh : l.lh = s.m.log.lh) (hpins : ∀ tail rest, pc ≠ .install tail rest)
    (hc : CommitInv start (s.contents d0) { s.m with log := l } pc) :
    CacheInv start d0 { s with m := { s.m with log := l }, pc := pc } block disk := by
  have hp : CacheState.pins { s with m := { s.m with log := l }, pc := pc } = s.pins := by
    rw [pins_idle hpc]
    cases pc with
    | install tail rest => exact absurd rfl (hpins tail rest)
    | idle | copy | finish => exact hlh
  refine ⟨?_, h.clean, ?_, ⟨h.bufs.locked, h.bufs.dirty, h.bufs.logData⟩, ?_, hc⟩
  · rw [hp]
    exact h.view.with_log l hd hs
  · rw [hp]
    exact h.stored
  · rw [hlh]
    exact h.list

theorem begin
    (hrun : beginOp s.m = .ok () m') : CacheInv start d0 { s with m := m' } block disk := by
  have hp : post beginOp s.m (fun _ m' => s.m.log.committing = false ∧ m' = { s.m with
      log := { s.m.log with outstanding := s.m.log.outstanding+1 } }) (fun _ _ => True) := by
    unfold beginOp
    rw [post_bind, post_get]
    cases hc : s.m.log.committing with
    | true => exact trivial
    | false =>
      rw [if_neg (by simp)]
      split_ifs
      · exact trivial
      · exact ⟨rfl,by simp [hc]⟩
  obtain ⟨hc,rfl⟩ := post_ok hp hrun
  have hpc := h.pc_idle (Or.inl hc)
  have hnext := h.counters hpc { s.m.log with outstanding := s.m.log.outstanding+1 } s.pc rfl rfl
    rfl (by simp [hpc]) (by rw [hpc]; trivial)
  exact hnext

theorem leave (hc : s.m.log.committing = false) :
    CacheInv start d0 { s with m := (leaveOp s.m).1, pc := (leaveOp s.m).2 } block disk := by
  have hpc := h.pc_idle (Or.inl hc)
  unfold leaveOp
  by_cases hlast : s.m.log.outstanding-1 = 0
  · rw [if_pos hlast]
    apply h.counters hpc
    · rfl
    · rfl
    · rfl
    · intro tail rest
      split_ifs <;> simp
    · by_cases hlen : s.m.log.lh.length > 0
      · rw [if_pos hlen]
        exact ⟨rfl, hlast, ⟨[],rfl,rfl⟩, fun k b hk => absurd hk (Nat.not_lt_zero k)⟩
      · have hnil : s.m.log.lh = [] := List.eq_nil_of_length_eq_zero (by omega)
        rw [if_neg hlen]
        exact ⟨rfl, hlast, hnil⟩
  · rw [if_neg hlast]
    exact h.counters hpc _ _ rfl rfl rfl (by simp) trivial

theorem modify {v : Block} (hl : (s.m.buf i).lock = some p) (hb : Home start (s.m.buf i).blockno)
    (hrun : setData i v s.m = .ok () m') :
    CacheInv start d0 { s with m := m', dirty := update s.dirty i true }
      (writeBlock block ((s.m.buf i).blockno, v)) disk := by
  have hd := h.bufs.locked i (by simp [hl])
  obtain ⟨hview,hsame,hbuf,_,hother⟩ := post_ok (setData_view h.view v
    (writeBlock block ((s.m.buf i).blockno, v)) ⟨hd,rfl,hl⟩ (fun _ => by simp [writeBlock])
    (fun e he => writeBlock_other he)) hrun
  have hpins : CacheState.pins { s with m := m', dirty := update s.dirty i true } =
      s.pins := by
    simp only [CacheState.pins, hsame.2.2]
  refine ⟨hpins ▸ hview, ?_, hpins ▸ h.stored, ?_, hsame.2.2 ▸ h.list,
    h.commit.congr hsame.2.2 (fun _ => by rw [hsame.1])⟩
  · intro e he hne
    by_cases heb : e = (s.m.buf i).blockno
    · exact ⟨i, hbuf.1, hbuf.2.1.trans heb.symm, by simp⟩
    · obtain ⟨j,hj⟩ := h.clean e he (by rwa [writeBlock_other heb] at hne)
      have hji : j ≠ i := by
        rintro rfl
        exact heb hj.2.1.symm
      exact ⟨j, hother j hji ▸ hj.1, hother j hji ▸ hj.2.1, (update_of_ne hji _ _).trans hj.2.2⟩
  · refine h.bufs.step i hother (fun j hj => update_of_ne hj _ _) hsame.1
      (fun _ => hbuf.1) (fun _ => by simp [hbuf.2.2]) ?_
    rw [hbuf.2.1]
    exact fun _ => absurd hb

theorem release (hclean : s.dirty i = false) (hrun : brelse p i s.m = .ok () m') :
    CacheInv start d0 { s with m := m' } block disk := by
  have hl : (s.m.buf i).lock = some p := by
    by_contra hne
    have hp : post (brelse p i) s.m never (fun _ _ => True) := by
      simp [brelse, holdingsleep, hne]
    exact post_ok hp hrun
  have hd := h.bufs.locked i (by simp [hl])
  obtain ⟨hview,hsame,hother⟩ := post_ok
    (brelse_view h.view hd hl (h.bufs.logData i hd)) hrun
  obtain ⟨lru,_,hm'⟩ := post_ok (brelse_post s.m p i hl) hrun
  have hi : m'.buf i = { s.m.buf i with lock := none, refcnt := (s.m.buf i).refcnt-1 } := by
    rw [hm']
    exact update_self _ _ _
  have hpins : CacheState.pins { s with m := m' } = s.pins := by
    simp only [CacheState.pins, hsame.2.2]
  refine ⟨hpins ▸ hview, ?_, hpins ▸ h.stored, ?_, hsame.2.2 ▸ h.list,
    h.commit.congr hsame.2.2 (fun _ => by rw [hsame.1])⟩
  · intro e he hne
    obtain ⟨j,hj⟩ := h.clean e he hne
    have hji : j ≠ i := by
      rintro rfl
      rw [hclean] at hj
      exact absurd hj.2.2 (by simp)
    exact ⟨j, by rw [hother j hji]; exact hj⟩
  · refine h.bufs.step i hother (fun _ _ => rfl) hsame.1 (by simp [hi]) (by simp [hclean]) ?_
    rw [hi]
    exact h.bufs.logData i

/-- `log_write` makes the contents of the buffer those of the block array. -/
theorem logWrite (hl : (s.m.buf i).lock = some p) (hb : Home start (s.m.buf i).blockno)
    (hrun : Xv6.logWrite i s.m = .ok () m') :
    CacheInv start d0 { s with
      m := m'
      dirty := update s.dirty i false
      logged := s.logged ++ [((s.m.buf i).blockno, (s.m.buf i).data)] } block disk := by
  have hd := h.bufs.locked i (by simp [hl])
  have hout : 0 < s.m.log.outstanding := by
    have hp : post (Xv6.logWrite i) s.m (fun _ _ => 0 < s.m.log.outstanding) (fun _ _ => True) := by
      unfold Xv6.logWrite
      rw [post_bind, post_get]
      split_ifs
      all_goals first | exact trivial | exact Nat.pos_of_ne_zero (by omega)
    have hq := post_ok hp hrun
    exact hq
  have hpc := h.pc_idle (Or.inr hout)
  have hview0 := h.view
  rw [pins_idle hpc] at hview0
  obtain ⟨hview,hdisk,_,hlog,hlt,hdev,hbno,hlock⟩ := post_ok (logWrite_view hview0 hd) hrun
  obtain ⟨hother,hdata⟩ := post_ok (logWrite_buf s.m i) hrun
  set b := (s.m.buf i).blockno with hbdef
  set s' : CacheState := { s with
    m := m'
    dirty := update s.dirty i false
    logged := s.logged ++ [(b, (s.m.buf i).data)] } with hs'
  have hcontents : ∀ e, e ≠ b → s'.contents d0 e = s.contents d0 e := by
    intro e he
    rw [CacheState.contents, writeBlocks_append]
    exact writeBlock_other he
  have hself : s'.contents d0 b = (s.m.buf i).data := by
    rw [CacheState.contents, writeBlocks_append]
    exact update_self _ _ _
  have hlh : m'.log.lh = if b ∈ s.m.log.lh then s.m.log.lh else s.m.log.lh ++ [b] := by
    rw [hlog]
  have hpins : s'.pins = m'.log.lh := pins_idle hpc
  refine ⟨hpins ▸ hview, ?_, ?_, ?_, ?_, ?_⟩
  · intro e he hne
    have heb : e ≠ b := by
      rintro rfl
      rw [hself] at hne
      exact hne (h.view.data i hd hb).symm
    obtain ⟨j,hj⟩ := h.clean e he (by rwa [hcontents e heb] at hne)
    have hji : j ≠ i := by
      rintro rfl
      exact heb hj.2.1.symm
    exact ⟨j, hother j hji ▸ hj.1, hother j hji ▸ hj.2.1, (update_of_ne hji _ _).trans hj.2.2⟩
  · intro e he hnot
    rw [hpins, hlh, mem_absorb, not_or] at hnot
    rw [hcontents e hnot.2]
    exact h.stored e he (by rw [pins_idle hpc]; exact hnot.1)
  · refine h.bufs.step i hother (fun j hj => update_of_ne hj _ _) hdisk
      (fun _ => hdev) (fun _ => by change (m'.buf i).lock.isSome; rw [hlock, hl]; rfl) ?_
    intro _ hn
    rw [hbno] at hn
    exact absurd hb hn
  · rw [hlh]
    exact h.list.absorb hb hlt
  · rw [hpc]
    trivial

/-- A step of the commit that writes one block which nobody has locked. -/
theorem commitStep {pc' : CommitPc}
    {block' disk' : ℕ → Block} {pos : ℕ} {v : Block} (hk : Keeps s.m [] m')
    (hw : Wrote s.m m' [(pos,v)]) (hu : Unlocked s.m pos)
    (hview : CacheView start (CacheState.pins { s with m := m', pc := pc' }) m' block' disk')
    (hblock : ∀ e, Home start e → block' e ≠ s.contents d0 e → block e ≠ s.contents d0 e)
    (hstored : ∀ e, Home start e → e ∉ CacheState.pins { s with m := m', pc := pc' } →
      disk' e = s.contents d0 e)
    (hlist : LogList start m'.log.lh) (hcommit : CommitInv start (s.contents d0) m' pc') :
    CacheInv start d0 { s with m := m', pc := pc' } block' disk' := by
  refine ⟨hview, ?_, hstored, h.bufs.keeps hk hview hw hu, hlist, hcommit⟩
  intro e he hne
  obtain ⟨j,hj⟩ := h.clean e he (hblock e he hne)
  have hsame := (hk.locked j (h.bufs.dirty j hj.2.2)).1
  exact ⟨j, by rw [hsame]; exact hj⟩

end

theorem getElem_middle {done : List ℕ} {tail : ℕ} (hd : done.length = tail) :
    (done ++ b :: rest)[tail]? = some b := by
  rw [← hd, List.getElem?_append_right (Nat.le_refl _), Nat.sub_self, List.getElem?_cons_zero]

section
variable (h : CacheInv start d0 s block disk)
include h

theorem copy {tail : ℕ}
    (hpc : s.pc = .copy tail (b :: rest)) (hrun : writeLogBlock p tail b s.m = .ok () m') :
    CacheInv start d0 { s with m := m', pc := .copy (tail+1) rest } block disk := by
  have hc := h.commit
  rw [hpc] at hc
  obtain ⟨hcom,hout,⟨copied,hlh,hlen⟩,hcopied⟩ := hc
  have hpins : s.pins = s.m.log.lh := by rw [CacheState.pins, hpc]
  have hmem : b ∈ s.m.log.lh := by simp [hlh]
  have hb := h.list.home b hmem
  have ht : tail < LOGBLOCKS := by
    have := h.list.fits
    rw [hlh, List.length_append, List.length_cons] at this
    omega
  obtain ⟨hview,hw,hlog⟩ := post_ok (writeLogBlock_post h.view (hpins ▸ hmem) hb ht) hrun
  obtain ⟨hk,hut,hu⟩ := post_ok (writeLogBlock_keeps h.view ht) hrun
  have hpins' : CacheState.pins { s with m := m', pc := .copy (tail+1) rest } = s.pins := by
    rw [hpins]
    exact congrArg Log.lh hlog
  have hblock := h.unlocked_clean hb hu
  rw [hblock] at hw
  refine h.commitStep hk hw hut (hpins' ▸ hview) (fun _ _ hne => hne) (hpins' ▸ h.stored)
    (hlog ▸ h.list) ⟨hlog ▸ hcom, hlog ▸ hout, ⟨copied ++ [b], ?_, ?_⟩, ?_⟩
  · rw [hlog, hlh, List.append_assoc, List.singleton_append]
  · rw [List.length_append, List.length_singleton, hlen]
  · intro k e hk' he
    rw [hlog] at he
    rw [hw.2, writeBlocks_cons, writeBlocks_nil]
    by_cases hkt : k = tail
    · rw [hkt, hlh, getElem_middle hlen] at he
      rw [hkt, writeBlock, update_self, Option.some.inj he]
    · rw [writeBlock_other (by dsimp only; omega)]
      exact hcopied k e (by omega) he

theorem commitHead {tail : ℕ} (hpc : s.pc = .copy tail []) (hrun : writeHead p s.m = .ok () m') :
    CacheInv start d0 { s with m := m', pc := .install 0 m'.log.lh } block disk := by
  have hc := h.commit
  rw [hpc] at hc
  obtain ⟨hcom,hout,⟨copied,hlh,hlen⟩,hcopied⟩ := hc
  obtain ⟨hview,hw,hlog⟩ := post_ok (writeHead_post (p := p) h.view) hrun
  obtain ⟨hk,hu⟩ := post_ok (writeHead_keeps h.view) hrun
  have hpins : s.pins = m'.log.lh := by rw [CacheState.pins, hpc, hlog]
  refine h.commitStep hk hw hu (hpins ▸ hview) (fun _ _ hne => hne) (hpins ▸ h.stored)
    (hlog ▸ h.list) ⟨hlog ▸ hcom, hlog ▸ hout, ⟨[],rfl,rfl⟩, ?_⟩
  intro k e hk' he
  rw [hlog] at hk' he
  rw [hlh, List.append_nil, hlen] at hk'
  rw [hw.2, writeBlocks_cons, writeBlocks_nil, writeBlock_other (by dsimp only; omega)]
  exact hcopied k e hk' he

/-- One block is installed: its home block now holds the logged contents and loses its pin. -/
theorem install {tail : ℕ} (hpc : s.pc = .install tail (b :: rest))
    (hrun : installBlock p false tail b s.m = .ok () m') :
    CacheInv start d0 { s with m := m', pc := .install (tail+1) rest }
      (writeBlock block (b, s.contents d0 b)) (writeBlock disk (b, s.contents d0 b)) := by
  have hc := h.commit
  rw [hpc] at hc
  obtain ⟨hcom,hout,⟨done,hlh,hlen⟩,hcopied⟩ := hc
  have hpins : s.pins = b :: rest := by rw [CacheState.pins, hpc]
  have hb : Home start b := h.list.home b (by simp [hlh])
  have hfits := h.list.fits
  have hnodup := h.list.nodup
  rw [hlh] at hfits hnodup
  rw [List.length_append, List.length_cons] at hfits
  have hbr : b ∉ rest := (List.nodup_cons.mp (List.nodup_append.mp hnodup).2.1).1
  have ht : tail < LOGBLOCKS := by omega
  have hcopy : s.m.disk (start+tail+1) = s.contents d0 b := by
    apply hcopied tail b
    · rw [hlh, List.length_append, List.length_cons]
      omega
    · rw [hlh, getElem_middle hlen]
  have hview0 : CacheView start (if false then rest else b :: rest) s.m block disk := by
    rw [← hpins]
    exact h.view
  obtain ⟨hview,hw,hlog⟩ := post_ok (installBlock_post (p := p) hview0 hbr hb ht) hrun
  obtain ⟨hk,hu⟩ := post_ok (installBlock_keeps h.view ht) hrun
  rw [hcopy] at hview hw
  refine h.commitStep hk hw hu hview ?_ ?_ (hlog ▸ h.list)
    ⟨hlog ▸ hcom, hlog ▸ hout, ⟨done ++ [b], ?_, ?_⟩, ?_⟩
  · intro e _ hne
    by_cases heb : e = b
    · rw [heb, writeBlock, update_self] at hne
      exact absurd rfl hne
    · rwa [writeBlock_other heb] at hne
  · intro e he hnot
    by_cases heb : e = b
    · rw [heb, writeBlock, update_self]
    · rw [writeBlock_other heb]
      apply h.stored e he
      rw [hpins, List.mem_cons, not_or]
      exact ⟨heb,hnot⟩
  · rw [hlog, hlh, List.append_assoc, List.singleton_append]
  · rw [List.length_append, List.length_singleton, hlen]
  · intro k e hk' he
    rw [hlog] at hk' he
    rw [hw.2, writeBlocks_cons, writeBlocks_nil, writeBlock_other]
    · exact hcopied k e hk' he
    · -- the write went to a home block
      rintro hkb
      have hlk := h.list.fits
      exact logBlock_not_home start k (by omega) (by rw [hkb]; exact hb)

theorem clear {tail : ℕ}
    (hpc : s.pc = .install tail []) (hrun : (do setLh []; writeHead p) s.m = .ok () m') :
    CacheInv start d0 { s with m := m', pc := .finish } block disk := by
  have hc := h.commit
  rw [hpc] at hc
  obtain ⟨hcom,hout,_⟩ := hc
  have hpins : s.pins = [] := by rw [CacheState.pins, hpc]
  obtain ⟨m1,hm1⟩ : ∃ m1 : Machine, m1 = { s.m with log := { s.m.log with lh := [] } } := ⟨_,rfl⟩
  have hrun1 : writeHead p m1 = .ok () m' := by rw [hm1]; exact hrun
  have hview1 : CacheView start [] m1 block disk := by
    rw [hm1, ← hpins]
    exact h.view.with_log _ rfl rfl
  obtain ⟨hview,hw,hlog⟩ := post_ok (writeHead_post (p := p) hview1) hrun1
  obtain ⟨hk,hu⟩ := post_ok (writeHead_keeps hview1) hrun1
  have hbuf1 : m1.buf = s.m.buf := by rw [hm1]
  have hlh : m'.log.lh = [] := by rw [hlog, hm1]
  have hk' : Keeps s.m [] m' :=
    ⟨hk.inList, hbuf1 ▸ hk.locked, hbuf1 ▸ hk.unlocked⟩
  have hw' : Wrote s.m m' [(start, setHead (m1.disk start) m1.log.lh)] := by
    rw [hm1] at hw ⊢
    exact hw
  have hu' : Unlocked s.m start := fun i => hbuf1 ▸ hu i
  refine h.commitStep hk' hw' hu' ?_ (fun _ _ hne => hne) ?_ ?_ ⟨?_, ?_, hlh⟩
  · change CacheView start m'.log.lh m' block disk
    rw [hlh]
    exact hview
  · intro e he _
    exact h.stored e he (by simp [hpins])
  · rw [hlh]
    exact (Logged.nil start).toLogList
  · rw [hlog, hm1]
    exact hcom
  · rw [hlog, hm1]
    exact hout

theorem finish (hpc : s.pc = .finish) :
    CacheInv start d0 { s with
      m := { s.m with log := { s.m.log with committing := false } }
      pc := .idle } block disk := by
  have hpins : s.pins = s.m.log.lh := by rw [CacheState.pins, hpc]
  refine ⟨?_, h.clean, ?_, ⟨h.bufs.locked, h.bufs.dirty, h.bufs.logData⟩, h.list, trivial⟩
  · have hview := h.view
    rw [hpins] at hview
    exact hview.with_log _ rfl rfl
  · have hstored := h.stored
    rw [hpins] at hstored
    exact hstored

end

end CacheInv

variable {d0 : ℕ → Block}

/-- Every step keeps the invariant, for some new view of the cache. -/
theorem CacheStep.inv {start : ℕ} {s t : CacheState}
    (hstep : CacheStep start s t) (h : ∃ block disk, CacheInv start d0 s block disk) :
    ∃ block disk, CacheInv start d0 t block disk := by
  obtain ⟨block,disk,h⟩ := h
  cases hstep with
  | reorder lru hl => exact ⟨_, _, h.reorder hl⟩
  | begin hrun => exact ⟨_, _, h.begin hrun⟩
  | read p b i hrun =>
    obtain ⟨block',h',_⟩ := h.read (post_ok (bread_fetched _ p ROOTDEV b h.view.inList) hrun)
    exact ⟨_, _, h'⟩
  | modify p i v hl hb hrun => exact ⟨_, _, h.modify hl hb hrun⟩
  | logWrite p i hl hb hrun => exact ⟨_, _, h.logWrite hl hb hrun⟩
  | release p i hd hrun => exact ⟨_, _, h.release hd hrun⟩
  | leave _ hc => exact ⟨_, _, h.leave hc⟩
  | copy p hpc hrun => exact ⟨_, _, h.copy hpc hrun⟩
  | commit p hpc hrun => exact ⟨_, _, h.commitHead hpc hrun⟩
  | install p hpc hrun => exact ⟨_, _, h.install hpc hrun⟩
  | clear p hpc hrun => exact ⟨_, _, h.clear hpc hrun⟩
  | finish hpc => exact ⟨_, _, h.finish hpc⟩

theorem CacheStep.run_inv {start : ℕ} {s t : CacheState} (hrun : ReflTransGen (CacheStep start) s t)
    (h : ∃ block disk, CacheInv start d0 s block disk) :
    ∃ block disk, CacheInv start d0 t block disk := by
  induction hrun with
  | refl => exact h
  | tail _ hstep ih => exact hstep.inv ih

section
variable (start p : ℕ) (dirty : Fin NBUF → Bool) (logged : List (ℕ × Block))

theorem writeLogFrom_steps (bs : List ℕ) (tail : ℕ) (m : Machine) :
    post (writeLogFrom p tail bs) m (fun _ m' => ReflTransGen (CacheStep start)
      ⟨m, .copy tail bs, dirty, logged⟩ ⟨m', .copy (tail+bs.length) [], dirty, logged⟩)
      (fun _ _ => True) := by
  induction bs generalizing tail m with
  | nil => exact ReflTransGen.refl
  | cons b bs ih =>
    apply post_bind_of (post_true (post_self (writeLogBlock p tail b) m))
    intro _ m1 hrun
    apply post_imp (ih (tail+1) m1)
    intro _ m2 hsteps
    rw [List.length_cons, show tail+(bs.length+1) = tail+1+bs.length by omega]
    exact ReflTransGen.head (CacheStep.copy p rfl hrun) hsteps

theorem installTransFrom_steps (bs : List ℕ) (tail : ℕ) (m : Machine) :
    post (installTransFrom p false tail bs) m (fun _ m' => ReflTransGen (CacheStep start)
      ⟨m, .install tail bs, dirty, logged⟩ ⟨m', .install (tail+bs.length) [], dirty, logged⟩)
      (fun _ _ => True) := by
  induction bs generalizing tail m with
  | nil => exact ReflTransGen.refl
  | cons b bs ih =>
    apply post_bind_of (post_true (post_self (installBlock p false tail b) m))
    intro _ m1 hrun
    apply post_imp (ih (tail+1) m1)
    intro _ m2 hsteps
    rw [List.length_cons, show tail+(bs.length+1) = tail+1+bs.length by omega]
    exact ReflTransGen.head (CacheStep.install p rfl hrun) hsteps

theorem commit_steps (m : Machine) (hlen : m.log.lh.length > 0) :
    post (commit p) m (fun _ m' => ReflTransGen (CacheStep start)
      ⟨m, .copy 0 m.log.lh, dirty, logged⟩ ⟨m', .finish, dirty, logged⟩) (fun _ _ => True) := by
  unfold commit writeLog installTrans
  rw [post_bind, post_get, if_pos hlen, bind_assoc, post_bind]
  apply post_bind_of (writeLogFrom_steps start p dirty logged m.log.lh 0 m)
  intro _ m1 hcopy
  apply post_bind_of (post_true (post_self (writeHead p) m1))
  intro _ m2 hhead
  apply post_bind_of (installTransFrom_steps start p dirty logged m2.log.lh 0 m2)
  intro _ m3 hinstall
  apply post_imp (post_true (post_self (do setLh []; writeHead p) m3))
  intro _ m4 hclear
  exact ((hcopy.tail (CacheStep.commit p rfl hhead)).trans hinstall).tail
    (CacheStep.clear p rfl hclear)

/-- `end_op` as the code runs it, in one go, is a run of the steps above. -/
theorem endOp_steps (m : Machine) (hout : 0 < m.log.outstanding) :
    post (endOp p) m (fun _ m' => ReflTransGen (CacheStep start)
      ⟨m, .idle, dirty, logged⟩ ⟨m', .idle, dirty, logged⟩) (fun _ _ => True) := by
  unfold endOp
  rw [post_bind, post_modify, post_bind, post_get]
  cases hc : m.log.committing with
  | true =>
    exact trivial
  | false =>
    have hleave := @CacheStep.leave start ⟨m, .idle, dirty, logged⟩ hout hc
    unfold leaveOp at hleave
    rw [if_neg (by simp)]
    by_cases hlast : m.log.outstanding-1 = 0
    · rw [if_pos hlast] at hleave ⊢
      rw [post_bind, post_modify]
      obtain ⟨m1,hm1⟩ : ∃ m1 : Machine, m1 = { m with log := { m.log with
        outstanding := m.log.outstanding-1, committing := true } } := ⟨_,rfl⟩
      have hlh : m1.log.lh = m.log.lh := by rw [hm1]
      have hcommit : post (commit p) m1 (fun _ m' => ReflTransGen (CacheStep start)
          ⟨m, .idle, dirty, logged⟩ ⟨m', .finish, dirty, logged⟩) (fun _ _ => True) := by
        split_ifs at hleave with hlen
        · rw [← hm1, ← hlh] at hleave
          exact post_imp (commit_steps start p dirty logged m1 (hlh ▸ hlen)) (fun _ _ => ReflTransGen.head hleave)
        · rw [← hm1] at hleave
          rw [← hlh] at hlen
          simp only [commit, post_bind, post_get, if_neg hlen, post_pure]
          exact ReflTransGen.single hleave
      rw [← hm1]
      apply post_bind_of hcommit
      intro _ m2 hsteps
      exact hsteps.tail (CacheStep.finish rfl)
    · rw [if_neg hlast] at hleave ⊢
      exact ReflTransGen.single hleave

end

/-- The writes of a transaction, one after the other, are steps that log its contents. -/
theorem writeTxn_steps (start p : ℕ) (txn : Txn) (htxn : ∀ w ∈ txn, Home start w.1)
    (logged : List (ℕ × Block)) (m : Machine) (hl : ∀ i, i ∈ m.lru) :
    post (writeTxn p txn) m (fun _ m' => ReflTransGen (CacheStep start)
      ⟨m, .idle, fun _ => false, logged⟩ ⟨m', .idle, fun _ => false, logged ++ txn⟩)
      (fun _ _ => True) := by
  induction txn generalizing logged m with
  | nil =>
    rw [List.append_nil]
    exact ReflTransGen.refl
  | cons w ws ih =>
    obtain ⟨b,v⟩ := w
    have hb : Home start b := htxn (b,v) List.mem_cons_self
    apply post_bind_of (post_true (post_and (bread_fetched m p ROOTDEV b hl)
      (post_self (bread p ROOTDEV b) m)))
    rintro bp m1 ⟨hf1,hrun1⟩
    obtain ⟨_,hb1,hl1⟩ := hf1.buffer
    have hk1 := (Keeps.refl hl).fetched hf1
    apply post_bind_of (post_true (post_and (hk1.modBuf_post (i := bp) (by simp) _)
      (post_and (setData_buf m1 bp v) (post_self (setData bp v) m1))))
    rintro _ m2 ⟨hk2,hbuf2,hrun2⟩
    apply post_bind_of (post_true (post_and (hk2.logWrite_post (i := bp) (by simp))
      (post_self (logWrite bp) m2)))
    rintro _ m3 ⟨hk3,hrun3⟩
    apply post_bind_of (post_true (post_and (hk3.brelse_post (i := bp) (p := p) (by simp) []
      (by simp) (by simp)) (post_self (brelse p bp) m3)))
    rintro _ m4 ⟨hk4,hrun4⟩
    obtain ⟨idle,hidle⟩ : ∃ f : Fin NBUF → Bool, f = fun _ => false := ⟨_,rfl⟩
    have hread : CacheStep start ⟨m, .idle, idle, logged⟩ ⟨m1, .idle, idle, logged⟩ :=
      CacheStep.read p b bp hrun1
    have hmodify : CacheStep start ⟨m1, .idle, idle, logged⟩
        ⟨m2, .idle, update idle bp true, logged⟩ :=
      CacheStep.modify p bp v hl1 (hb1 ▸ hb) hrun2
    have hlogged : CacheStep start ⟨m2, .idle, update idle bp true, logged⟩
        ⟨m3, .idle, idle, logged ++ [(b,v)]⟩ := by
      have hstep := @CacheStep.logWrite start ⟨m2, .idle, update idle bp true, logged⟩ m3 p bp
        (by rw [hbuf2]; exact hl1) (by rw [hbuf2]; exact hb1 ▸ hb) hrun3
      have hself : update (update idle bp true) bp false = idle := by
        rw [update_idem, update_eq_self_iff, hidle]
      rw [hself, hbuf2, hb1] at hstep
      exact hstep
    have hrelease : CacheStep start ⟨m3, .idle, idle, logged ++ [(b,v)]⟩
        ⟨m4, .idle, idle, logged ++ [(b,v)]⟩ :=
      CacheStep.release p bp (by rw [hidle]) hrun4
    have hone := (((ReflTransGen.single hread).tail hmodify).tail hlogged).tail hrelease
    apply post_imp (ih (fun w hw => htxn w (List.mem_cons_of_mem _ hw)) (logged ++ [(b,v)]) m4
      hk4.inList)
    intro _ m5 hsteps
    rw [List.append_assoc, ← hidle] at hsteps
    rw [← hidle]
    exact hone.trans hsteps

/-- The cache after `initlog`: nothing is logged or modified yet. -/
def CacheState.initial (m : Machine) : CacheState := ⟨m, .idle, fun _ => false, []⟩

theorem initial_inv {start p : ℕ} {d : ℕ → Block} {m : Machine}
    (hl : Logged start (headEntries (d start))) (hinit : initlog p ROOTDEV start (boot d) = .ok () m) :
    ∃ block disk, CacheInv start m.disk (CacheState.initial m) block disk := by
  have hrun := hinit
  have hview := boot_view start d
  obtain ⟨hidle,_⟩ := post_ok (initlog_boot (p := p) ⟨hl, fun _ _ => rfl⟩) hinit
  have hk := post_ok (recoverFromLog_keeps (p := p) hview hl.toLogList) hrun
  have hnone : ∀ i, (m.buf i).lock = none := by
    intro i
    by_contra hne
    have hold := hk.unlocked i List.not_mem_nil (Option.isSome_iff_ne_none.mpr hne)
    exact absurd hold (by simp [boot])
  have hlist : LogList start m.log.lh := by
    rw [hidle.lh]
    exact (Logged.nil start).toLogList
  set D := writeBlocks d (homeCopies start d 0 (headEntries (d start)))
  refine ⟨D, D, ⟨?_, ?_, ?_, ⟨?_, ?_, ?_⟩, hlist, trivial⟩⟩
  · change CacheView start m.log.lh m D D
    rw [hidle.lh]
    exact hidle.view
  · intro b hb hne
    exact absurd (hidle.view.home b hb).symm hne
  · intro b hb _
    exact (hidle.view.home b hb).symm
  · intro i hi
    exact absurd (hnone i) (Option.isSome_iff_ne_none.mp hi)
  · intro i hi
    exact absurd hi (by simp [CacheState.initial])
  · intro i hd hn
    exact hidle.view.logData i hd hn (hnone i)

/-- Cache and log are a block array: in every run, every `bread` of a block outside the log
area returns what was last logged for it, or what was there after recovery. -/
theorem bread_returns_logged (start p0 : ℕ) (d : ℕ → Block)
    (hl : Logged start (headEntries (d start))) (m0 : Machine)
    (hinit : initlog p0 ROOTDEV start (boot d) = .ok () m0) (s : CacheState)
    (hrun : ReflTransGen (CacheStep start) (CacheState.initial m0) s) (p b : ℕ)
    (hb : Home start b) (i : Fin NBUF) (m' : Machine)
    (hread : bread p ROOTDEV b s.m = .ok i m') :
    (m'.buf i).data = writeBlocks m0.disk s.logged b := by
  obtain ⟨block,disk,h⟩ := CacheStep.run_inv hrun (initial_inv hl hinit)
  have hf := post_ok (bread_fetched s.m p ROOTDEV b h.view.inList) hread
  obtain ⟨_,_,hdata⟩ := h.read hf
  exact hdata hb

/-- A block is logged by one process and committed; another process then reads it. -/
theorem bread_returns_logged_once : ∃ (m0 : Machine) (s : CacheState) (i : Fin NBUF)
    (m' : Machine), initlog 0 ROOTDEV 2 (boot fun _ => zeroBlock) = .ok () m0 ∧
      ReflTransGen (CacheStep 2) (CacheState.initial m0) s ∧ s.logged = [(50, fun _ => 7)] ∧
      bread 2 ROOTDEV 50 s.m = .ok i m' ∧ (m'.buf i).data = fun _ => 7 := by
  set m0 := after (initlog 0 ROOTDEV 2) (boot fun _ => zeroBlock)
  set m1 := after beginOp m0
  set m2 := after (writeTxn 1 [(50, fun _ => 7)]) m1
  set m3 := after (endOp 1) m2
  have h0 : initlog 0 ROOTDEV 2 (boot fun _ => zeroBlock) = .ok () m0 :=
    eq_ok_of_returns (by decide +kernel)
  have h1 : beginOp m0 = .ok () m1 := eq_ok_of_returns (by decide +kernel)
  have h2 : writeTxn 1 [(50, fun _ => 7)] m1 = .ok () m2 := eq_ok_of_returns (by decide +kernel)
  have h3 : endOp 1 m2 = .ok () m3 := eq_ok_of_returns (by decide +kernel)
  obtain ⟨i,h4⟩ : ∃ i, bread 2 ROOTDEV 50 m3 = .ok i (after (bread 2 ROOTDEV 50) m3) :=
    exists_ok_of_returns (by decide +kernel)
  have hlru : ∀ j, j ∈ m1.lru := by decide +kernel
  have hout : 0 < m2.log.outstanding := by decide +kernel
  clear_value m0 m1 m2 m3
  have hlog : Logged 2 (headEntries zeroBlock) := by
    exact Logged.nil 2
  have hbegin : CacheStep 2 (CacheState.initial m0) (CacheState.initial m1) :=
    CacheStep.begin h1
  have hwrite := post_ok (writeTxn_steps 2 1 [(50, fun _ => 7)]
    (fun w hw => by rw [List.mem_singleton.mp hw]; unfold Home; decide) [] m1 hlru)
    h2
  have hend := post_ok (endOp_steps 2 1 (fun _ => false) [(50, fun _ => 7)] m2 hout) h3
  have hrun := (ReflTransGen.head hbegin hwrite).trans hend
  refine ⟨m0, _, i, _, h0, hrun, rfl, h4, ?_⟩
  exact bread_returns_logged 2 0 (fun _ => zeroBlock) hlog m0 h0 _ hrun 2 50
    (by unfold Home; decide) i _ h4

end Xv6
