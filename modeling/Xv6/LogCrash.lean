import Xv6.LogRecovery

/-! Crash atomicity of the log: power failures between any two writes, and recoveries cut short any
number of times. -/
namespace Xv6
open ByteFields StateOutcome Function

/-- The blocks a transaction logs, with the contents it gives them, in order. -/
abbrev Txn := List (ℕ × Block)

def TxnOk (start : ℕ) (txn : Txn) : Prop := ∀ w ∈ txn, Home start w.1 ∧ w.1 < 2^32

def writeTxn (p : ℕ) : Txn → Kern Unit
  | [] => return
  | (b,v) :: ws => do
    let bp ← bread p ROOTDEV b
    setData bp v
    logWrite bp
    brelse p bp
    writeTxn p ws

def transaction (p : ℕ) (txn : Txn) : Kern Unit := do
  beginOp
  writeTxn p txn
  endOp p

def boot (d : ℕ → Block) : Machine where
  buf := fun _ => ⟨false, 0, 0, none, 0, zeroBlock⟩
  lru := (List.finRange NBUF).reverse
  log := ⟨0, 0, false, 0, []⟩
  disk := d
  writes := []

variable {block disk D d : ℕ → Block} {m : Machine} {p : ℕ}

theorem logWrite_view {start : ℕ} {i : Fin NBUF}
    (h : CacheView start m.log.lh m block disk) (hd : (m.buf i).dev = ROOTDEV) :
    post (logWrite i) m (fun _ m' => CacheView start m'.log.lh m' block disk ∧
      m'.disk = m.disk ∧ m'.writes = m.writes ∧
      m'.log = { m.log with lh := if (m.buf i).blockno ∈ m.log.lh then m.log.lh
        else m.log.lh ++ [(m.buf i).blockno] } ∧ m.log.lh.length < LOGBLOCKS ∧
      (m'.buf i).dev = ROOTDEV ∧ (m'.buf i).blockno = (m.buf i).blockno ∧
      (m'.buf i).lock = (m.buf i).lock) (fun _ m' => m' = m) := by
  unfold logWrite
  rw [post_bind, post_get]
  by_cases hfull : m.log.lh.length ≥ LOGBLOCKS
  · rw [if_pos hfull, post_throw]
  by_cases hout : m.log.outstanding < 1
  · rw [if_neg hfull, if_pos hout, post_throw]
  have hlt : m.log.lh.length < LOGBLOCKS := by omega
  rw [if_neg hfull, if_neg hout]
  by_cases hb : (m.buf i).blockno ∈ m.log.lh
  · rw [if_pos hb, if_pos hb]
    exact ⟨h, rfl, rfl, rfl, hlt, hd, rfl, rfl⟩
  · rw [if_neg hb, if_neg hb, post_bind, bpin, modBuf, setLh, post_modify]
    refine ⟨(h.pin hb hd).with_log _ rfl rfl, rfl, rfl, rfl, hlt, ?_⟩
    simpa only [setBuf_buf, update_self, and_true] using hd

structure Idle (start : ℕ) (m : Machine) (D : ℕ → Block) : Prop where
  view : CacheView start [] m D D
  lh : m.log.lh = []
  outstanding : m.log.outstanding = 0
  committing : m.log.committing = false
  head : getLE (m.disk start) 0 4 = 0

theorem Wrote.of_same {m' : Machine} (hd : m'.disk = m.disk) (hw : m'.writes = m.writes) :
    Wrote m m' [] :=
  ⟨by rw [hw, List.append_nil], by rw [hd, writeBlocks_nil]⟩

theorem Logged.absorb {start b : ℕ} {lh : List ℕ} (h : Logged start lh) (hb : Home start b)
    (hu : b < 2^32) (hlt : lh.length < LOGBLOCKS) :
    Logged start (if b ∈ lh then lh else lh ++ [b]) := by
  refine ⟨h.toLogList.absorb hb hlt, ?_⟩
  intro c hc
  rcases (mem_absorb b c lh).mp hc with hc | rfl
  · exact h.uint c hc
  · exact hu

/-- After the writes of a transaction the kernel sees them, the disk is as it was, and the
log names exactly the blocks that were written. -/
theorem writeTxn_post {start : ℕ} (txn : Txn) (htxn : TxnOk start txn)
    (h : CacheView start m.log.lh m block disk)
    (hl : Logged start m.log.lh) :
    post (writeTxn p txn) m (fun _ m' =>
      CacheView start m'.log.lh m' (writeBlocks block txn) disk ∧ Logged start m'.log.lh ∧
      m'.disk = m.disk ∧ m'.writes = m.writes ∧ m'.log = { m.log with lh := m'.log.lh } ∧
      ∀ b, b ∈ m'.log.lh ↔ b ∈ m.log.lh ∨ b ∈ txn.map Prod.fst)
      (fun _ m' => m'.disk = m.disk ∧ m'.writes = m.writes) := by
  induction txn generalizing m block with
  | nil => exact ⟨h, hl, rfl, rfl, rfl, by simp⟩
  | cons w ws ih =>
    obtain ⟨b,v⟩ := w
    obtain ⟨hb,hu⟩ := htxn (b,v) List.mem_cons_self
    apply post_bind_of (post_errors (bread_fetched m p ROOTDEV b h.inList) (fun _ _ hs => ⟨hs.1,hs.2.1⟩))
    intro bp m1 hf1
    have hs1 := hf1.sameDisk
    have hset : post (setData bp v) m1 (fun _ m2 =>
        CacheView start m.log.lh m2 (writeBlock block (b,v)) disk ∧ SameDisk m1 m2 ∧
        (m2.buf bp).dev = ROOTDEV ∧ (m2.buf bp).blockno = b ∧ (m2.buf bp).lock = some p)
        never := by
      rcases h.fetched_home hf1 hb with ⟨h1,_⟩ | ⟨_,h1,_⟩
      · apply post_imp (setData_view h1 v (writeBlock block (b,v)) hf1.buffer
          (fun _ => by simp [writeBlock]) (fun e he => writeBlock_other he))
        rintro _ m2 ⟨h2,hs2,hbuf,_⟩
        exact ⟨h2,hs2,hbuf⟩
      · apply post_imp (setData_view h1 v (writeBlock block (b,v)) hf1.buffer
          (fun _ => by simp [writeBlock])
          (fun e he => by rw [writeBlock_other he, update_of_ne he]))
        rintro _ m2 ⟨h2,hs2,hbuf,_⟩
        exact ⟨h2,hs2,hbuf⟩
    apply post_bind_of (post_safe hset)
    rintro _ m2 ⟨h2,hs2,hd2,hb2,hl2⟩
    have hsame := hs1.trans hs2
    rw [← hsame.2.2] at h2
    apply post_bind_of (post_errors (logWrite_view h2 hd2) (fun _ _ he => by
      subst he
      exact ⟨hsame.1,hsame.2.1⟩))
    rintro _ m3 ⟨h3,hdisk3,hwr3,hlog3,hlt,hd3,hb3,hl3⟩
    rw [hsame.2.2, hb2] at hlog3
    rw [hsame.2.2] at hlt
    have hlh3 : m3.log.lh = if b ∈ m.log.lh then m.log.lh else m.log.lh ++ [b] := by
      rw [hlog3]
    apply post_bind_of (post_safe (brelse_view h3 hd3 (hl3.trans hl2)
      (fun hn => absurd (by rwa [hb3, hb2]) hn)))
    rintro _ m4 ⟨h4,hs4,_⟩
    rw [← hs4.2.2] at h4
    have hl4 : Logged start m4.log.lh := by
      rw [hs4.2.2, hlh3]
      exact hl.absorb hb hu hlt
    have hmem : ∀ c, c ∈ m4.log.lh ↔ c ∈ m.log.lh ∨ c = b := by
      intro c
      rw [hs4.2.2, hlh3]
      exact mem_absorb b c m.log.lh
    have hdw : m4.disk = m.disk ∧ m4.writes = m.writes :=
      ⟨by rw [hs4.1, hdisk3, hsame.1], by rw [hs4.2.1, hwr3, hsame.2.1]⟩
    apply post_mono (ih (fun w hw => htxn w (List.mem_cons_of_mem _ hw)) h4 hl4)
    · rintro _ m5 ⟨h5,hl5,hd5,hw5,hlog5,hmem5⟩
      refine ⟨h5, hl5, hd5.trans hdw.1, hw5.trans hdw.2, ?_, ?_⟩
      · rw [hlog5, hs4.2.2, hlog3]
      · intro c
        rw [hmem5 c, hmem c, List.map_cons, List.mem_cons]
        tauto
    · intro _ m5 hq
      exact ⟨hq.1.trans hdw.1, hq.2.trans hdw.2⟩

theorem writeBlocks_txn (D : ℕ → Block) (txn : Txn) (lh : List ℕ)
    (hlh : ∀ b, b ∈ lh ↔ b ∈ txn.map Prod.fst) :
    (fun b => if b ∈ lh then writeBlocks D txn b else D b) = writeBlocks D txn := by
  funext b
  split_ifs with hb
  · rfl
  · apply (writeBlocks_other D txn b _).symm
    intro w hw he
    exact hb ((hlh b).mpr (List.mem_map.mpr ⟨w,hw,he⟩))

/-- Writes that a transaction may have made by the time it stops: a prefix of its commit. -/
def CommitPrefix (start : ℕ) (head : Block) (D : ℕ → Block) (txn : Txn)
    (vs : List (ℕ × Block)) : Prop :=
  vs = [] ∨ ∃ lh, Logged start lh ∧ (∀ b, b ∈ lh ↔ b ∈ txn.map Prod.fst) ∧
    vs <+: commitWrites start head (writeBlocks D txn) lh

theorem headWritten_commitWrites (start : ℕ) (head : Block) (block : ℕ → Block) (lh : List ℕ)
    (hw : headWritten start (commitWrites start head block lh) = false) : lh = [] := by
  by_contra hlh
  simp [commitWrites, hlh, headWritten] at hw

/-- `begin_op` and the writes of a transaction on an idle machine: nothing reaches the disk. -/
theorem beginOp_writeTxn {start : ℕ} (txn : Txn) (htxn : TxnOk start txn) (h : Idle start m D) :
    post (do beginOp; writeTxn p txn) m (fun _ m' =>
        CacheView start m'.log.lh m' (writeBlocks D txn) D ∧ Logged start m'.log.lh ∧
        Wrote m m' [] ∧ m'.log.outstanding = 1 ∧ m'.log.committing = false ∧
        ∀ b, b ∈ m'.log.lh ↔ b ∈ txn.map Prod.fst)
      (fun _ m' => Wrote m m' []) := by
  obtain ⟨m1,hm1⟩ : ∃ m1 : Machine, m1 = { m with log := { m.log with outstanding := 1 } } :=
    ⟨_,rfl⟩
  have hbegin : post beginOp m (fun _ m' => m' = m1) (fun _ m' => Wrote m m' []) := by
    unfold beginOp
    rw [post_bind, post_get, h.committing, if_neg (by simp), h.lh, h.outstanding,
      if_neg (by decide), post_modify, h.outstanding, hm1]
  have hw1 : Wrote m m1 [] := by
    rw [hm1]
    exact ⟨by rw [List.append_nil], rfl⟩
  have hlh1 : m1.log.lh = [] := by rw [hm1]; exact h.lh
  have h1 : CacheView start m1.log.lh m1 D D := by
    rw [hlh1, hm1]
    exact h.view.with_log _ rfl rfl
  apply post_bind_of hbegin
  rintro _ _ rfl
  apply post_mono (writeTxn_post txn htxn h1 (hlh1 ▸ Logged.nil start))
  · rintro _ m2 ⟨h2,hl2,hd2,hw2,hlog2,hmem2⟩
    refine ⟨h2, hl2, hw1.trans (Wrote.of_same hd2 hw2), ?_, ?_, ?_⟩
    · rw [hlog2, hm1]
    · rw [hlog2, hm1]
      exact h.committing
    · intro b
      rw [hmem2 b, hlh1]
      simp
  · rintro _ m2 ⟨hd2,hw2⟩
    exact hw1.trans (Wrote.of_same hd2 hw2)

theorem commitWrites_head {start : ℕ} (hn : getLE (d start) 0 4 = 0)
    (block : ℕ → Block) (lh : List ℕ) :
    getLE (writeBlocks d (commitWrites start (d start) block lh) start) 0 4 = 0 := by
  by_cases hlh : lh = []
  · rw [commitWrites, if_pos hlh]
    exact hn
  · rw [commitWrites, if_neg hlh, writeBlocks_append, writeBlocks_cons, writeBlocks_append,
      writeBlocks_cons, writeBlocks_nil, writeBlock, update_self]
    exact setHead_length _ [] (by simp)

/-- One transaction from an idle machine: it writes the commit's list, or a prefix of it when
it stops on the way. -/
theorem transaction_post {start : ℕ} (txn : Txn) (htxn : TxnOk start txn) (h : Idle start m D) :
    post (transaction p txn) m (fun _ m' => Idle start m' (writeBlocks D txn) ∧
        ∃ vs, Wrote m m' vs ∧ CommitPrefix start (m.disk start) D txn vs ∧
          (headWritten start vs = false → txn = []))
      (fun _ m' => ∃ vs, Wrote m m' vs ∧ CommitPrefix start (m.disk start) D txn vs) := by
  have hassoc : transaction p txn = ((do beginOp; writeTxn p txn) >>= fun _ => endOp p) := by
    unfold transaction
    rw [bind_assoc]
  rw [hassoc]
  apply post_bind_of (post_errors (beginOp_writeTxn txn htxn h) (fun _ m' hw => ⟨[], hw, Or.inl rfl⟩))
  rintro _ m2 ⟨h2,hl2,hw2,hout,hcom,hmem⟩
  -- the last end_op commits
  unfold endOp
  rw [post_bind, post_modify, post_bind, post_get]
  rw [hcom, hout, if_neg (by simp), if_pos rfl, post_bind, post_modify]
  obtain ⟨m3,hm3⟩ : ∃ m3 : Machine, m3 = { m2 with log := { m2.log with
    outstanding := 1-1, committing := true } } := ⟨_,rfl⟩
  have h3 : CacheView start m3.log.lh m3 (writeBlocks D txn) D := by
    rw [hm3]
    exact h2.with_log _ rfl rfl
  have hlh3 : m3.log.lh = m2.log.lh := by rw [hm3]
  have hw3 : Wrote m m3 [] := hw2.trans (Wrote.of_same (by rw [hm3]) (by rw [hm3]))
  have hhead : m3.disk start = m.disk start := by rw [hw3.2, writeBlocks_nil]
  have hc := commit_post (p := p) h3 (hlh3 ▸ hl2.nodup) (hlh3 ▸ hl2.home) (hlh3 ▸ hl2.fits)
  rw [hhead, hlh3] at hc
  rw [← hm3]
  apply post_bind_of (post_errors hc (fun _ m' hst => by
    obtain ⟨vs,hp,hw⟩ := hw3.stopped_after hst
    exact ⟨vs, hw, Or.inr ⟨m2.log.lh, hl2, hmem, hp⟩⟩))
  rintro _ m4 ⟨h4,hw4,hlog4⟩
  rw [post_modify]
  have hw := hw3.trans hw4
  rw [writeBlocks_txn D txn _ hmem] at h4
  refine ⟨⟨h4.with_log _ rfl rfl, by rw [hlog4], by rw [hlog4, hm3], rfl, ?_⟩, _,
    ⟨hw.1,hw.2⟩, Or.inr ⟨m2.log.lh, hl2, hmem, List.prefix_rfl⟩, ?_⟩
  · rw [hw.2]
    exact commitWrites_head h.head _ _
  · intro hn
    have hnil := headWritten_commitWrites _ _ _ _ hn
    rw [hnil] at hmem
    apply List.eq_nil_iff_forall_not_mem.mpr
    rintro w hwt
    exact absurd ((hmem w.1).mpr (List.mem_map_of_mem hwt)) List.not_mem_nil

theorem recoverFromLog_post {start : ℕ}
    (h : CacheView start [] m block disk) (hl : Logged start (headEntries (m.disk start))) :
    post (recoverFromLog p) m (fun _ m' =>
        CacheView start [] m'
          (writeBlocks block (homeCopies start m.disk 0 (headEntries (m.disk start))))
          (writeBlocks disk (homeCopies start m.disk 0 (headEntries (m.disk start)))) ∧
        Wrote m m' (recoverWrites start m.disk) ∧ m'.log = { m.log with lh := [] })
      (fun _ m' => StoppedIn m m' (recoverWrites start m.disk)) := by
  unfold recoverFromLog recoverWrites
  apply post_bind_of (post_errors (readHead_post h) (fun _ _ hs => by
    have hstop := hs.append (homeCopies start m.disk 0 (headEntries (m.disk start)) ++
      [(start, setHead (m.disk start) [])])
    rwa [List.nil_append] at hstop))
  rintro _ m1 ⟨h1,hw1,hlog1⟩
  have hd1 : m1.disk = m.disk := by rw [hw1.2, writeBlocks_nil]
  have hinstall := installTransFrom_post (p := p) true _ 0 h1 hl.nodup hl.home
    (by rw [Nat.zero_add]; exact hl.fits)
  rw [hd1] at hinstall
  unfold installTrans
  rw [bind_assoc, post_bind, post_get, hlog1]
  apply post_bind_of (post_errors hinstall (fun _ _ hs => by
    have hstop := hw1.stopped_after hs
    rw [List.nil_append] at hstop
    exact hstop.append _))
  rintro _ m2 ⟨h2,hw2,hlog2⟩
  rw [post_bind, setLh, post_modify]
  obtain ⟨m3,hm3⟩ : ∃ m3 : Machine, m3 = { m2 with log := { m2.log with lh := [] } } := ⟨_,rfl⟩
  rw [← hm3]
  have hw3 : Wrote m m3 (homeCopies start m.disk 0 (headEntries (m.disk start))) := by
    rw [hm3]
    exact hw1.trans hw2
  have hstart : m3.disk start = m.disk start := by
    rw [hw3.2]
    exact writeBlocks_log _ _ (homeCopies_home _ _ _ hl.home) _ header_not_home
  have hhead := writeHead_post (p := p) (h2.with_log { m2.log with lh := [] } rfl rfl)
  rw [← hm3, hstart, show m3.log.lh = [] by rw [hm3]] at hhead
  apply post_mono hhead
  · rintro _ m4 ⟨h4,hw4,hlog4⟩
    have hlog : m4.log = { m.log with lh := [] } := by
      rw [hlog4, hm3, hlog2, hlog1]
    exact ⟨h4, hw3.trans hw4, hlog⟩
  · intro _ m4 hs
    exact hw3.stopped_after hs

theorem boot_view (start : ℕ) (d : ℕ → Block) :
    CacheView start [] { boot d with log := { (boot d).log with start := start, dev := ROOTDEV } }
      d d where
  logDev := rfl
  logStart := rfl
  inList := fun i => List.mem_reverse.mpr (List.mem_finRange i)
  valid := fun _ => absurd rfl
  unique := fun _ _ => absurd rfl
  refs := fun _ => rfl
  pinned := by simp
  data := fun _ h => absurd h Nat.zero_ne_one
  logData := fun _ h => absurd h Nat.zero_ne_one
  home := fun _ _ => rfl

/-- A boot recovers the disk, or stops after a prefix of the writes that recovery makes. -/
theorem initlog_boot {start : ℕ} (h : Recovers start d D) : post (initlog p ROOTDEV start) (boot d)
      (fun _ m' => Idle start m' D ∧ m'.writes = recoverWrites start d)
      (fun _ m' => m'.writes <+: recoverWrites start d) := by
  unfold initlog
  apply post_mono (recoverFromLog_post (boot_view start d) h.logged)
  · rintro _ m' ⟨h',hw,hlog⟩
    have hend : writeBlocks (writeBlocks d (homeCopies start d 0 (headEntries (d start))))
        [(start, setHead (d start) [])] = m'.disk := by
      rw [← writeBlocks_append]
      exact hw.2.symm
    refine ⟨⟨?_, by rw [hlog], by rw [hlog]; rfl, by rw [hlog]; rfl, ?_⟩, by simpa [boot] using hw.1⟩
    · exact (h'.congr_disk D h.installs).congr_block D h.installs
    · rw [← hend, writeBlocks_cons, writeBlocks_nil, writeBlock, update_self]
      exact setHead_length _ [] (by simp)
  · rintro _ m' ⟨vs,hp,hw⟩
    have hvs : m'.writes = vs := hw.1
    rwa [hvs]

end Xv6
