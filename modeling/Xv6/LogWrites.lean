import Xv6.CacheView

/-! The single-block writes of commit and recovery. Each function writes a list that is known in
advance, and a prefix of it when it stops early; a crash cuts the same list. -/
namespace Xv6
open StateOutcome Function

def Wrote (m m' : Machine) (ws : List (ℕ × Block)) : Prop :=
  m'.writes = m.writes ++ ws ∧ m'.disk = writeBlocks m.disk ws

/-- The machine stopped in `m'` on the way to writing `ws`. -/
def StoppedIn (m m' : Machine) (ws : List (ℕ × Block)) : Prop :=
  ∃ vs, vs <+: ws ∧ Wrote m m' vs

variable {m m' m1 m2 m3 : Machine} {vs ws : List (ℕ × Block)} {i : Fin NBUF} {p : ℕ}

theorem SameDisk.wrote (h : SameDisk m m') : Wrote m m' [] :=
  ⟨by rw [h.2.1, List.append_nil], by rw [h.1, writeBlocks_nil]⟩

theorem Wrote.trans (h : Wrote m1 m2 ws) (h' : Wrote m2 m3 vs) : Wrote m1 m3 (ws ++ vs) :=
  ⟨by rw [h'.1, h.1, List.append_assoc], by rw [h'.2, h.2, writeBlocks_append]⟩

theorem SameDisk.stopped (h : SameDisk m m') (ws : List (ℕ × Block)) :
    StoppedIn m m' ws := ⟨[], List.nil_prefix, h.wrote⟩

theorem Wrote.stopped_after
    (h : Wrote m1 m2 ws) (h' : StoppedIn m2 m3 vs) : StoppedIn m1 m3 (ws ++ vs) := by
  obtain ⟨us,hp,hw⟩ := h'
  exact ⟨ws ++ us, (List.prefix_append_right_inj ws).mpr hp, h.trans hw⟩

theorem StoppedIn.append (h : StoppedIn m m' ws)
    (vs : List (ℕ × Block)) : StoppedIn m m' (ws ++ vs) := by
  obtain ⟨us,hp,hw⟩ := h
  exact ⟨us, hp.trans (List.prefix_append ws vs), hw⟩

theorem SameDisk.refl (m : Machine) : SameDisk m m := ⟨rfl,rfl,rfl⟩

theorem SameDisk.trans (h : SameDisk m1 m2) (h' : SameDisk m2 m3) :
    SameDisk m1 m3 := ⟨h'.1.trans h.1, h'.2.1.trans h.2.1, h'.2.2.trans h.2.2⟩

section
variable {start : ℕ} {pins : List ℕ} {m : Machine} {block disk : ℕ → Block}

theorem logBlock_not_home (start tail : ℕ) (ht : tail < LOGBLOCKS) :
    ¬Home start (start+tail+1) := by
  unfold Home
  omega

theorem brelse_view (h : CacheView start pins m block disk)
    (hd : (m.buf i).dev = ROOTDEV) (hl : (m.buf i).lock = some p)
    (hlog : ¬Home start (m.buf i).blockno → (m.buf i).data = m.disk (m.buf i).blockno) :
    post (brelse p i) m (fun _ m' => CacheView start pins m' block disk ∧ SameDisk m m' ∧
      ∀ j, j ≠ i → m'.buf j = m.buf j) never := by
  apply post_imp (brelse_post m p i hl)
  rintro _ m' ⟨lru,hlru,rfl⟩
  refine ⟨(h.release hd (by simp [hl]) hlog).with_lru lru hlru, ⟨rfl,rfl,rfl⟩, ?_⟩
  intro j hj
  exact update_of_ne hj _ _

theorem setData_view {c : ℕ} (h : CacheView start pins m block disk) (v : Block)
    (block' : ℕ → Block) (hb : (m.buf i).dev = ROOTDEV ∧ (m.buf i).blockno = c ∧
      (m.buf i).lock = some p) (hv : Home start c → v = block' c)
    (ho : ∀ e, e ≠ c → block' e = block e) :
    post (setData i v) m (fun _ m' => CacheView start pins m' block' disk ∧ SameDisk m m' ∧
      ((m'.buf i).dev = ROOTDEV ∧ (m'.buf i).blockno = c ∧ (m'.buf i).lock = some p) ∧
      (m'.buf i).data = v ∧ ∀ j, j ≠ i → m'.buf j = m.buf j) never := by
  obtain ⟨hd,rfl,hl⟩ := hb
  refine ⟨h.store v block' hd (by simp [hl]) hv ho, ⟨rfl,rfl,rfl⟩, ?_, ?_, ?_⟩
  · simpa only [setBuf_buf, update_self, true_and] using ⟨hd,hl⟩
  · simp only [setBuf_buf, update_self]
  · intro j hj
    exact update_of_ne hj _ _

theorem bwrite_view {c : ℕ} (h : CacheView start pins m block disk)
    (hb : (m.buf i).dev = ROOTDEV ∧ (m.buf i).blockno = c ∧ (m.buf i).lock = some p) :
    post (bwrite p i) m (fun _ m' =>
      CacheView start pins m' block (writeBlock disk (c, (m.buf i).data)) ∧
      Wrote m m' [(c, (m.buf i).data)] ∧ m'.log = m.log ∧ m'.buf = m.buf) never := by
  obtain ⟨hd,rfl,hl⟩ := hb
  apply post_imp (bwrite_post m p i hl)
  rintro _ m' rfl
  exact ⟨h.write _ hd (by simp [hl]), ⟨rfl,rfl⟩, rfl, rfl⟩

theorem writeLogBlock_post {tail b : ℕ} (h : CacheView start pins m block disk)
    (hb : b ∈ pins) (hh : Home start b) (ht : tail < LOGBLOCKS) :
    post (writeLogBlock p tail b) m (fun _ m' => CacheView start pins m' block disk ∧
        Wrote m m' [(start+tail+1, block b)] ∧ m'.log = m.log)
      (fun _ m' => StoppedIn m m' [(start+tail+1, block b)]) := by
  have hL := logBlock_not_home start tail ht
  unfold writeLogBlock
  rw [post_bind, post_get, h.logDev, h.logStart]
  apply post_bind_of (post_mono (bread_fetched m p ROOTDEV (start+tail+1) h.inList)
    (fun _ _ hf => hf) (fun _ _ hs => hs.stopped _))
  intro tbuf m1 hf1
  obtain ⟨h1,_⟩ := h.fetched_log hf1 hL
  apply post_bind_of (post_mono (bread_fetched m1 p ROOTDEV b h1.inList)
    (fun _ _ hf => hf) (fun _ _ hs => (hf1.sameDisk.trans hs).stopped _))
  intro fbuf m2 hf2
  obtain ⟨h2,hdata⟩ := h1.fetched_pinned hf2 hh hb
  have hne : tbuf ≠ fbuf := hf2.ne_locked (by simp [hf1.buffer.2.2])
  have hsame := hf1.sameDisk.trans hf2.sameDisk
  rw [post_bind, post_get, hdata]
  apply post_bind_of (post_mono (setData_view (p := p) (c := start+tail+1) h2 (block b) block
    (by rw [hf2.other hne]; exact hf1.buffer) (fun hc => absurd hc hL) (fun _ _ => rfl))
    (fun _ _ hq => hq) (fun _ _ hn => hn.elim))
  rintro _ m3 ⟨h3,hs3,hbuf3,hdata3,ho3⟩
  apply post_bind_of (post_mono (bwrite_view h3 hbuf3) (fun _ _ hq => hq) (fun _ _ hn => hn.elim))
  rintro _ m4 ⟨h4,hw4,hlog4,hbufs4⟩
  rw [hdata3] at h4 hw4
  -- the log block is not a home block, so the home blocks are as they were
  have h4' : CacheView start pins m4 block disk := by
    apply h4.congr_disk
    intro c hc
    apply writeBlock_other
    rintro rfl
    exact hL hc
  have hw : Wrote m m4 [(start+tail+1, block b)] := (hsame.trans hs3).wrote.trans hw4
  have hfb : m4.buf fbuf = m2.buf fbuf := by rw [hbufs4, ho3 fbuf hne.symm]
  have hfbuf := hf2.buffer
  rw [← hfb] at hfbuf
  apply post_bind_of (post_mono (brelse_view h4' hfbuf.1 hfbuf.2.2
    (absurd (hfbuf.2.1 ▸ hh))) (fun _ _ hq => hq) (fun _ _ hn => hn.elim))
  rintro _ m5 ⟨h5,hs5,ho5⟩
  have htb : m5.buf tbuf = m3.buf tbuf := by rw [ho5 tbuf hne, hbufs4]
  have htbuf := hbuf3
  rw [← htb] at htbuf
  apply post_mono (brelse_view h5 htbuf.1 htbuf.2.2 ?_) _ (fun _ _ hn => hn.elim)
  · intro _
    rw [htb, hdata3, hbuf3.2.1, hs5.1, hw4.2]
    simp [writeBlocks, writeBlock]
  · rintro _ m6 ⟨h6,hs6,_⟩
    have hw' := hw.trans (hs5.trans hs6).wrote
    refine ⟨h6, hw', ?_⟩
    rw [hs6.2.2, hs5.2.2, hlog4, hs3.2.2, hsame.2.2]

/-- One entry is installed: the copy in the log goes to the home block. While a transaction
commits the block also loses its pin. -/
theorem installBlock_post {tail b : ℕ} {recovering : Bool}
    (h : CacheView start (if recovering then pins else b :: pins) m block disk) (hb : b ∉ pins)
    (hh : Home start b) (ht : tail < LOGBLOCKS) :
    post (installBlock p recovering tail b) m
      (fun _ m' => CacheView start pins m' (writeBlock block (b, m.disk (start+tail+1)))
          (writeBlock disk (b, m.disk (start+tail+1))) ∧
        Wrote m m' [(b, m.disk (start+tail+1))] ∧ m'.log = m.log)
      (fun _ m' => StoppedIn m m' [(b, m.disk (start+tail+1))]) := by
  have hL := logBlock_not_home start tail ht
  unfold installBlock
  rw [post_bind, post_get, h.logDev, h.logStart]
  apply post_bind_of (post_errors (bread_fetched m p ROOTDEV (start+tail+1) h.inList) (fun _ _ hs => hs.stopped _))
  intro lbuf m1 hf1
  obtain ⟨h1,hdata⟩ := h.fetched_log hf1 hL
  apply post_bind_of (post_errors (bread_fetched m1 p ROOTDEV b h1.inList) (fun _ _ hs => (hf1.sameDisk.trans hs).stopped _))
  intro dbuf m2 hf2
  have hne : lbuf ≠ dbuf := hf2.ne_locked (by simp [hf1.buffer.2.2])
  have hsame := hf1.sameDisk.trans hf2.sameDisk
  rw [post_bind, post_get, hf2.other hne, hdata]
  have hset : post (setData dbuf (m.disk (start+tail+1))) m2 (fun _ m3 =>
      CacheView start (if recovering then pins else b :: pins) m3
        (writeBlock block (b, m.disk (start+tail+1))) disk ∧ SameDisk m2 m3 ∧
      ((m3.buf dbuf).dev = ROOTDEV ∧ (m3.buf dbuf).blockno = b ∧ (m3.buf dbuf).lock = some p) ∧
      (m3.buf dbuf).data = m.disk (start+tail+1) ∧
      ∀ j, j ≠ dbuf → m3.buf j = m2.buf j) never := by
    rcases h1.fetched_home hf2 hh with ⟨h2,_⟩ | ⟨_,h2,_⟩
    · exact setData_view h2 _ _ hf2.buffer (fun _ => by simp [writeBlock])
        (fun e he => writeBlock_other he)
    · exact setData_view h2 _ _ hf2.buffer (fun _ => by simp [writeBlock])
        (fun e he => by rw [writeBlock_other he, update_of_ne he])
  apply post_bind_of (post_safe hset)
  rintro _ m3 ⟨h3,hs3,hbuf3,hdata3,ho3⟩
  apply post_bind_of (post_safe (bwrite_view h3 hbuf3))
  rintro _ m4 ⟨h4,hw4,hlog4,hbufs4⟩
  rw [hdata3] at h4 hw4
  have hw : Wrote m m4 [(b, m.disk (start+tail+1))] := (hsame.trans hs3).wrote.trans hw4
  have hbuf4 := hbuf3
  rw [← hbufs4] at hbuf4
  have hunpin : post (if recovering = true then pure () else bunpin dbuf) m4 (fun _ m5 =>
      CacheView start pins m5 (writeBlock block (b, m.disk (start+tail+1)))
        (writeBlock disk (b, m.disk (start+tail+1))) ∧ SameDisk m4 m5 ∧
      ((m5.buf dbuf).dev = ROOTDEV ∧ (m5.buf dbuf).blockno = b ∧ (m5.buf dbuf).lock = some p) ∧
      ∀ j, j ≠ dbuf → m5.buf j = m4.buf j) never := by
    cases recovering with
    | true =>
      exact ⟨h4, SameDisk.refl _, hbuf4, fun _ _ => rfl⟩
    | false =>
      refine ⟨h4.unpin hb hbuf4.1 hbuf4.2.1, ⟨rfl,rfl,rfl⟩, ?_, ?_⟩
      · simpa only [setBuf_buf, update_self] using hbuf4
      · intro j hj
        exact update_of_ne hj _ _
  apply post_bind_of (post_safe hunpin)
  rintro _ m5 ⟨h5,hs5,hbuf5,ho5⟩
  have hlb : m5.buf lbuf = m1.buf lbuf := by
    rw [ho5 lbuf hne, hbufs4, ho3 lbuf hne, hf2.other hne]
  have hlbuf := hf1.buffer
  rw [← hlb] at hlbuf
  -- the log block was only read, and the write went to a home block
  have hclean : ¬Home start (m5.buf lbuf).blockno →
      (m5.buf lbuf).data = m5.disk (m5.buf lbuf).blockno := by
    intro _
    rw [hlbuf.2.1, hlb, hdata, hs5.1, hw.2]
    exact (writeBlocks_other _ _ _ (by
      rintro w hw he
      rw [List.mem_singleton.mp hw] at he
      exact hL (he ▸ hh))).symm
  apply post_bind_of (post_safe (brelse_view h5 hlbuf.1 hlbuf.2.2 hclean))
  rintro _ m6 ⟨h6,hs6,ho6⟩
  have hbuf6 := hbuf5
  rw [← ho6 dbuf hne.symm] at hbuf6
  apply post_imp (post_safe (brelse_view h6 hbuf6.1 hbuf6.2.2
    (absurd (hbuf6.2.1 ▸ hh))))
  rintro _ m7 ⟨h7,hs7,_⟩
  have hw' := hw.trans ((hs5.trans hs6).trans hs7).wrote
  refine ⟨h7, hw', ?_⟩
  rw [hs7.2.2, hs6.2.2, hs5.2.2, hlog4, hs3.2.2, hsame.2.2]

/-- The copies that `write_log` makes of the blocks `bs`, from entry `tail` on. -/
def logCopies (start : ℕ) (block : ℕ → Block) (tail : ℕ) : List ℕ → List (ℕ × Block)
  | [] => []
  | b :: bs => (start+tail+1, block b) :: logCopies start block (tail+1) bs

/-- The writes of `install_trans` on a disk `d`, from entry `tail` on. -/
def homeCopies (start : ℕ) (d : ℕ → Block) (tail : ℕ) : List ℕ → List (ℕ × Block)
  | [] => []
  | b :: bs => (b, d (start+tail+1)) :: homeCopies start d (tail+1) bs

theorem homeCopies_congr (start : ℕ) (d e : ℕ → Block) (tail : ℕ) (bs : List ℕ)
    (h : ∀ k, k < bs.length → d (start+(tail+k)+1) = e (start+(tail+k)+1)) :
    homeCopies start d tail bs = homeCopies start e tail bs := by
  induction bs generalizing tail with
  | nil => rfl
  | cons b bs ih =>
    have h0 : d (start+tail+1) = e (start+tail+1) := h 0 (by simp)
    have ht := ih (tail+1) (by
      intro k hk
      have := h (k+1) (by simpa using hk)
      rwa [show tail+(k+1) = tail+1+k from by omega] at this)
    simp only [homeCopies, h0, ht]

theorem writeLogFrom_post (bs : List ℕ) (tail : ℕ)
    (h : CacheView start pins m block disk) (hb : ∀ b ∈ bs, b ∈ pins ∧ Home start b)
    (ht : tail+bs.length ≤ LOGBLOCKS) :
    post (writeLogFrom p tail bs) m (fun _ m' => CacheView start pins m' block disk ∧
        Wrote m m' (logCopies start block tail bs) ∧ m'.log = m.log)
      (fun _ m' => StoppedIn m m' (logCopies start block tail bs)) := by
  induction bs generalizing tail m with
  | nil => exact ⟨h, (SameDisk.refl m).wrote, rfl⟩
  | cons b bs ih =>
    rw [List.length_cons] at ht
    obtain ⟨hp,hh⟩ := hb b List.mem_cons_self
    apply post_bind_of (post_errors (writeLogBlock_post h hp hh (by omega)) (fun _ _ hs => hs.append _))
    rintro _ m1 ⟨h1,hw1,hl1⟩
    apply post_mono (ih (tail+1) h1 (fun c hc => hb c (List.mem_cons_of_mem b hc)) (by omega))
    · rintro _ m2 ⟨h2,hw2,hl2⟩
      exact ⟨h2, hw1.trans hw2, hl2.trans hl1⟩
    · intro _ m2 hs
      exact hw1.stopped_after hs

theorem installTransFrom_post (recovering : Bool) (bs : List ℕ) (tail : ℕ)
    (h : CacheView start (if recovering then [] else bs) m block disk) (hn : bs.Nodup)
    (hb : ∀ b ∈ bs, Home start b) (ht : tail+bs.length ≤ LOGBLOCKS) :
    post (installTransFrom p recovering tail bs) m
      (fun _ m' => CacheView start [] m' (writeBlocks block (homeCopies start m.disk tail bs))
          (writeBlocks disk (homeCopies start m.disk tail bs)) ∧
        Wrote m m' (homeCopies start m.disk tail bs) ∧ m'.log = m.log)
      (fun _ m' => StoppedIn m m' (homeCopies start m.disk tail bs)) := by
  induction bs generalizing tail m block disk with
  | nil =>
    refine ⟨?_, (SameDisk.refl m).wrote, rfl⟩
    cases recovering <;> exact h
  | cons b bs ih =>
    rw [List.length_cons] at ht
    rw [List.nodup_cons] at hn
    have hh := hb b List.mem_cons_self
    have hpins : CacheView start
        (if recovering then (if recovering then [] else bs) else b :: (if recovering then [] else bs))
        m block disk := by
      cases recovering <;> exact h
    have hnb : b ∉ (if recovering then [] else bs) := by
      cases recovering
      · exact hn.1
      · exact List.not_mem_nil
    apply post_bind_of (post_errors (installBlock_post hpins hnb hh (by omega)) (fun _ _ hs => hs.append _))
    rintro _ m1 ⟨h1,hw1,hl1⟩
    -- the write went to a home block: the rest of the log is read as it was
    have hrest : homeCopies start m1.disk (tail+1) bs = homeCopies start m.disk (tail+1) bs := by
      apply homeCopies_congr
      intro k hk
      rw [hw1.2]
      apply writeBlocks_other
      rintro w hw he
      rw [List.mem_singleton.mp hw] at he
      exact logBlock_not_home start (tail+1+k) (by omega) (he ▸ hh)
    have hrun := ih (tail+1) h1 hn.2 (fun c hc => hb c (List.mem_cons_of_mem b hc)) (by omega)
    rw [hrest] at hrun
    apply post_mono hrun
    · rintro _ m2 ⟨h2,hw2,hl2⟩
      exact ⟨h2, hw1.trans hw2, hl2.trans hl1⟩
    · intro _ m2 hs
      exact hw1.stopped_after hs

theorem header_not_home : ¬Home start start := by
  unfold Home
  omega

theorem readHead_post (h : CacheView start pins m block disk) :
    post (readHead p) m (fun _ m' => CacheView start pins m' block disk ∧ Wrote m m' [] ∧
      m'.log = { m.log with lh := headEntries (m.disk start) })
      (fun _ m' => StoppedIn m m' []) := by
  unfold readHead
  rw [post_bind, post_get, h.logDev, h.logStart]
  apply post_bind_of (post_errors (bread_fetched m p ROOTDEV start h.inList) (fun _ _ hs => hs.stopped _))
  intro buf m1 hf1
  obtain ⟨h1,hdata⟩ := h.fetched_log hf1 header_not_home
  rw [post_bind, post_get, hdata, post_bind, setLh]
  have h2 := h1.with_log { m1.log with lh := headEntries (m.disk start) } rfl rfl
  have hclean : (m1.buf buf).data = m1.disk (m1.buf buf).blockno := by
    rw [hdata, hf1.sameDisk.1, hf1.buffer.2.1]
  apply post_imp (post_safe (brelse_view h2 hf1.buffer.1 hf1.buffer.2.2 (fun _ => hclean)))
  rintro _ m3 ⟨h3,hs3,_⟩
  refine ⟨h3, ⟨?_,?_⟩, ?_⟩
  · rw [hs3.2.1, List.append_nil]
    exact hf1.sameDisk.2.1
  · rw [hs3.1]
    exact hf1.sameDisk.1
  · rw [hs3.2.2, ← hf1.sameDisk.2.2]

theorem writeHead_post (h : CacheView start pins m block disk) :
    post (writeHead p) m (fun _ m' => CacheView start pins m' block disk ∧
        Wrote m m' [(start, setHead (m.disk start) m.log.lh)] ∧ m'.log = m.log)
      (fun _ m' => StoppedIn m m' [(start, setHead (m.disk start) m.log.lh)]) := by
  unfold writeHead
  rw [post_bind, post_get, h.logDev, h.logStart]
  apply post_bind_of (post_errors (bread_fetched m p ROOTDEV start h.inList) (fun _ _ hs => hs.stopped _))
  intro buf m1 hf1
  obtain ⟨h1,hdata⟩ := h.fetched_log hf1 header_not_home
  rw [post_bind, post_get, hdata, hf1.sameDisk.2.2]
  apply post_bind_of (post_safe (setData_view h1 (setHead (m.disk start) m.log.lh) block
    hf1.buffer (fun hc => absurd hc header_not_home) (fun _ _ => rfl)))
  rintro _ m2 ⟨h2,hs2,hbuf2,hdata2,_⟩
  apply post_bind_of (post_safe (bwrite_view h2 hbuf2))
  rintro _ m3 ⟨h3,hw3,hlog3,hbufs3⟩
  rw [hdata2] at h3 hw3
  have h3' : CacheView start pins m3 block disk := by
    apply h3.congr_disk
    intro c hc
    apply writeBlock_other
    rintro rfl
    exact header_not_home hc
  have hw : Wrote m m3 [(start, setHead (m.disk start) m.log.lh)] :=
    (hf1.sameDisk.trans hs2).wrote.trans hw3
  have hbuf3 := hbuf2
  rw [← hbufs3] at hbuf3
  have hclean : ¬Home start (m3.buf buf).blockno →
      (m3.buf buf).data = m3.disk (m3.buf buf).blockno := by
    intro _
    rw [hbuf3.2.1, hbufs3, hdata2, hw3.2]
    simp [writeBlocks, writeBlock]
  apply post_imp (post_safe (brelse_view h3' hbuf3.1 hbuf3.2.2 hclean))
  rintro _ m4 ⟨h4,hs4,_⟩
  have hw' := hw.trans hs4.wrote
  exact ⟨h4, hw', by rw [hs4.2.2, hlog3, hs2.2.2, hf1.sameDisk.2.2]⟩

theorem logCopies_above (block : ℕ → Block) (tail : ℕ) (bs : List ℕ) :
    ∀ w ∈ logCopies start block tail bs, start+tail < w.1 ∧ w.1 ≤ start+tail+bs.length := by
  induction bs generalizing tail with
  | nil => simp [logCopies]
  | cons b bs ih =>
    intro w hw
    rw [logCopies, List.mem_cons] at hw
    rw [List.length_cons]
    rcases hw with rfl | hw
    · exact ⟨by dsimp only; omega, by dsimp only; omega⟩
    · have := ih (tail+1) w hw
      omega

theorem homeCopies_logCopies (start : ℕ) (block d : ℕ → Block) (tail : ℕ) (bs : List ℕ) :
    homeCopies start (writeBlocks d (logCopies start block tail bs)) tail bs =
      bs.map fun b => (b, block b) := by
  induction bs generalizing tail d with
  | nil => rfl
  | cons b bs ih =>
    have hfirst : writeBlocks d (logCopies start block tail (b :: bs)) (start+tail+1) =
        block b := by
      rw [logCopies, writeBlocks_cons, writeBlocks_other]
      · simp [writeBlock]
      · intro w hw he
        have := logCopies_above block (tail+1) bs w hw
        omega
    rw [homeCopies, hfirst, List.map_cons, logCopies, writeBlocks_cons, ih]

theorem writeBlocks_same (d block : ℕ → Block) (bs : List ℕ) (b : ℕ) :
    writeBlocks d (bs.map fun c => (c, block c)) b = if b ∈ bs then block b else d b := by
  induction bs generalizing d with
  | nil => simp [writeBlocks]
  | cons c bs ih =>
    rw [List.map_cons, writeBlocks_cons, ih]
    by_cases hb : b ∈ bs
    · simp [hb]
    · by_cases hc : b = c
      · subst hc
        simp [writeBlock]
      · simp [hb, hc, writeBlock_other (w := (c, block c)) hc]

/-- All writes of a commit, in order: the copies, the header that makes the transaction
permanent, the home blocks, the empty header. -/
def commitWrites (start : ℕ) (head : Block) (block : ℕ → Block) (lh : List ℕ) : List (ℕ × Block) :=
  if lh = [] then [] else
    logCopies start block 0 lh ++ ((start, setHead head lh) ::
      ((lh.map fun b => (b, block b)) ++ [(start, setHead (setHead head lh) [])]))

theorem commit_post (h : CacheView start m.log.lh m block disk) (hn : m.log.lh.Nodup)
    (hb : ∀ b ∈ m.log.lh, Home start b) (hlen : m.log.lh.length ≤ LOGBLOCKS) :
    post (commit p) m (fun _ m' => CacheView start [] m' block
          (fun b => if b ∈ m.log.lh then block b else disk b) ∧
        Wrote m m' (commitWrites start (m.disk start) block m.log.lh) ∧
        m'.log = { m.log with lh := [] })
      (fun _ m' => StoppedIn m m' (commitWrites start (m.disk start) block m.log.lh)) := by
  unfold commit
  rw [post_bind, post_get]
  by_cases hlh : m.log.lh = []
  · simp only [hlh, List.length_nil, Nat.lt_irrefl, ↓reduceIte, List.not_mem_nil, commitWrites,
      post_pure, gt_iff_lt]
    refine ⟨by simpa only [hlh] using h, (SameDisk.refl m).wrote, ?_⟩
    rw [← hlh]
  · have hpos := List.length_pos_iff.mpr hlh
    simp only [hpos, ↓reduceIte]
    set lh := m.log.lh with hlhdef
    have hcw : commitWrites start (m.disk start) block lh = logCopies start block 0 lh ++
        ([(start, setHead (m.disk start) lh)] ++ ((lh.map fun b => (b, block b)) ++
          [(start, setHead (setHead (m.disk start) lh) [])])) := by
      simp only [commitWrites, hlh, ↓reduceIte, List.singleton_append]
    rw [hcw]
    -- the copies
    have hcopy : post (writeLog p) m (fun _ m' => CacheView start lh m' block disk ∧
          Wrote m m' (logCopies start block 0 lh) ∧ m'.log = m.log)
        (fun _ m' => StoppedIn m m' (logCopies start block 0 lh)) := by
      unfold writeLog
      exact writeLogFrom_post lh 0 h (fun b hb' => ⟨hb',hb b hb'⟩) (by omega)
    apply post_bind_of (post_errors hcopy (fun _ _ hs => hs.append _))
    rintro _ m1 ⟨h1,hw1,hl1⟩
    have hhead : m1.disk start = m.disk start := by
      rw [hw1.2]
      apply writeBlocks_other
      intro w hw he
      have := logCopies_above block 0 lh w hw
      omega
    -- the header: the transaction is committed
    have hcommit := writeHead_post (p := p) h1
    rw [hhead, hl1, ← hlhdef] at hcommit
    apply post_bind_of (post_errors hcommit (fun _ _ hs => hw1.stopped_after (hs.append _)))
    rintro _ m2 ⟨h2,hw2,hl2⟩
    -- the home blocks get the copies
    have hcopies : homeCopies start m2.disk 0 lh = lh.map fun b => (b, block b) := by
      rw [← homeCopies_logCopies start block m.disk 0 lh]
      apply homeCopies_congr
      intro k hk
      rw [hw2.2, hw1.2]
      apply writeBlocks_other
      intro w hw he
      rw [List.mem_singleton.mp hw] at he
      omega
    have hinst : post (installTrans p false) m2
        (fun _ m' => CacheView start [] m' (writeBlocks block (lh.map fun b => (b, block b)))
            (writeBlocks disk (lh.map fun b => (b, block b))) ∧
          Wrote m2 m' (lh.map fun b => (b, block b)) ∧ m'.log = m.log)
        (fun _ m' => StoppedIn m2 m' (lh.map fun b => (b, block b))) := by
      unfold installTrans
      rw [post_bind, post_get, hl2, ← hcopies]
      have h2' := h2
      have hrun := installTransFrom_post (p := p) false lh 0 h2' hn hb (by omega)
      rwa [hl2] at hrun
    apply post_bind_of (post_errors hinst (fun _ _ hs => hw1.stopped_after (hw2.stopped_after (hs.append _))))
    rintro _ m3 ⟨h3,hw3,hl3⟩
    have hhead3 : m3.disk start = setHead (m.disk start) lh := by
      rw [hw3.2, writeBlocks_other, hw2.2]
      · simp [writeBlocks, writeBlock]
      · intro w hw he
        obtain ⟨b,hb',rfl⟩ := List.mem_map.mp hw
        exact header_not_home (he ▸ hb b hb')
    have hsame : writeBlocks block (lh.map fun b => (b, block b)) = block := by
      funext b
      rw [writeBlocks_same, ite_self]
    have hdisk : writeBlocks disk (lh.map fun b => (b, block b)) =
        fun b => if b ∈ lh then block b else disk b := by
      funext b
      rw [writeBlocks_same]
    rw [hsame, hdisk] at h3
    -- the empty header
    have hclear := writeHead_post (p := p) (h3.with_log { m3.log with lh := [] } rfl rfl)
    rw [hhead3] at hclear
    apply post_mono hclear
    · rintro _ m4 ⟨h4,hw4,hl4⟩
      refine ⟨h4, hw1.trans (hw2.trans (hw3.trans hw4)), ?_⟩
      rw [hl4, hl3]
    · intro _ m4 hs
      exact hw1.stopped_after (hw2.stopped_after (hw3.stopped_after hs))

end
end Xv6
