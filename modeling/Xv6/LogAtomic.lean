import Xv6.LogCrash

/-! Runs of transactions, crashes that cut the writes of a commit or of a recovery anywhere, and
recoveries; a run keeps the list of the transactions whose header reached the disk. -/
namespace Xv6
open ByteFields StateOutcome Relation

/-- The power is on, or off with only the disk left. -/
inductive Power
  | on (m : Machine)
  | off (d : ℕ → Block)

def after {α : Type} (x : Kern α) (m : Machine) : Machine :=
  match x m with
  | .ok _ m' => m'
  | .error _ m' => m'

def returns {α : Type} (x : Kern α) (m : Machine) : Bool :=
  match x m with
  | .ok _ _ => true
  | .error _ _ => false

def newWrites (m m' : Machine) : List (ℕ × Block) := m'.writes.drop m.writes.length

/-- The transactions that count, after the writes `ws` of `txn` reached the disk. -/
def committedAfter (start : ℕ) (T : List Txn) (txn : Txn) (ws : List (ℕ × Block)) : List Txn :=
  T ++ if headWritten start ws then [txn] else []

inductive PowerStep (start : ℕ) : Power × List Txn → Power × List Txn → Prop
  | commit {m m' T} (p : ℕ) (txn : Txn) : TxnOk start txn → transaction p txn m = .ok () m' →
      PowerStep start (.on m, T) (.on m', committedAfter start T txn (newWrites m m'))
  | crash {m T} (p : ℕ) (txn : Txn) (k : ℕ) {ws : List (ℕ × Block)} : TxnOk start txn →
      ws = (newWrites m (after (transaction p txn) m)).take k →
      PowerStep start (.on m, T) (.off (writeBlocks m.disk ws), committedAfter start T txn ws)
  | recover {d m T} (p : ℕ) : initlog p ROOTDEV start (boot d) = .ok () m →
      PowerStep start (.off d, T) (.on m, T)
  | recoverCrash {d T} (p k : ℕ) {ws : List (ℕ × Block)} :
      ws = (after (initlog p ROOTDEV start) (boot d)).writes.take k →
      PowerStep start (.off d, T) (.off (writeBlocks d ws), T)

def PowerInv (start : ℕ) : Power → (ℕ → Block) → Prop
  | .on m, D => Idle start m D
  | .off d, D => Recovers start d D

variable {m : Machine} {ws : List (ℕ × Block)} {D d0 : ℕ → Block} {s t : Power × List Txn}

theorem after_post {α : Type} {x : Kern α} {R : Machine → Prop}
    (h : post x m (fun _ m' => R m') (fun _ m' => R m')) : R (after x m) := by
  unfold post at h
  unfold after
  cases hx : x m with
  | ok | error => rw [hx] at h; exact h

theorem exists_ok_of_returns {α : Type} {x : Kern α} (h : returns x m = true) :
    ∃ a, x m = .ok a (after x m) := by
  unfold returns at h
  unfold after
  cases hx : x m with
  | ok a m' => exact ⟨a,rfl⟩
  | error e m' => simp [hx] at h

theorem eq_ok_of_returns {x : Kern Unit} (h : returns x m = true) :
    x m = .ok () (after x m) := by
  obtain ⟨⟨⟩,hx⟩ := exists_ok_of_returns h
  exact hx

theorem Wrote.newWrites_eq {m' : Machine} (h : Wrote m m' ws) :
    newWrites m m' = ws := by
  rw [newWrites, h.1, List.drop_left]

theorem CommitPrefix.of_prefix {start : ℕ} {head : Block} {txn : Txn}
    {vs us : List (ℕ × Block)} (h : CommitPrefix start head D txn vs) (hp : us <+: vs) :
    CommitPrefix start head D txn us := by
  rcases h with rfl | ⟨lh,hl,hm,hvs⟩
  · exact Or.inl (List.prefix_nil.mp hp)
  · exact Or.inr ⟨lh, hl, hm, hp.trans hvs⟩

/-- A machine that loses power after some of the writes of a transaction. -/
theorem Idle.crash {start : ℕ} {txn : Txn} (h : Idle start m D)
    (hp : CommitPrefix start (m.disk start) D txn ws) :
    Recovers start (writeBlocks m.disk ws)
      (if headWritten start ws then writeBlocks D txn else D) := by
  rcases hp with rfl | ⟨lh,hl,hm,hws⟩
  · exact Recovers.of_empty h.head h.view.home
  · have hc := Recovers.commit_crash h.head h.view.home hl ws hws
    rwa [writeBlocks_txn D txn lh hm] at hc

theorem foldl_committedAfter (start : ℕ) (d : ℕ → Block) (T : List Txn) (txn : Txn)
    (ws : List (ℕ × Block)) :
    (committedAfter start T txn ws).foldl writeBlocks d =
      if headWritten start ws then writeBlocks (T.foldl writeBlocks d) txn
      else T.foldl writeBlocks d := by
  rw [committedAfter, List.foldl_append]
  split_ifs <;> rfl

theorem PowerStep.inv {start : ℕ}
    (hstep : PowerStep start s t) (h : PowerInv start s.1 (s.2.foldl writeBlocks d0)) :
    PowerInv start t.1 (t.2.foldl writeBlocks d0) := by
  cases hstep with
  | commit p txn htxn hrun =>
    obtain ⟨hidle,vs,hw,_,hnil⟩ := post_ok (transaction_post (p := p) txn htxn h) hrun
    rw [foldl_committedAfter, hw.newWrites_eq]
    by_cases hh : headWritten start vs = true
    · rw [if_pos hh]
      exact hidle
    · -- only an empty transaction ends without a header write
      rw [if_neg hh]
      rwa [hnil (by simpa using hh), writeBlocks_nil] at hidle
  | @crash m T p txn k ws htxn hws =>
    obtain ⟨vs,hw,hp⟩ : ∃ vs, Wrote m (after (transaction p txn) m) vs ∧
        CommitPrefix start (m.disk start) (T.foldl writeBlocks d0) txn vs := by
      apply after_post (R := fun m' => ∃ vs, Wrote m m' vs ∧
        CommitPrefix start (m.disk start) (T.foldl writeBlocks d0) txn vs)
      exact post_imp (transaction_post txn htxn h) (fun _ _ ⟨_,vs,hw,hp,_⟩ => ⟨vs,hw,hp⟩)
    rw [hw.newWrites_eq] at hws
    rw [foldl_committedAfter]
    exact h.crash (hp.of_prefix (hws ▸ List.take_prefix k vs))
  | recover p hrun => exact (post_ok (initlog_boot (p := p) h) hrun).1
  | @recoverCrash d T p k ws hws =>
    have hp : (after (initlog p ROOTDEV start) (boot d)).writes <+: recoverWrites start d := by
      apply after_post (R := fun m' => m'.writes <+: recoverWrites start d)
      exact post_imp (initlog_boot h) (fun _ _ hq => hq.2 ▸ List.prefix_rfl)
    exact h.recovery_crash ws (hws ▸ (List.take_prefix k _).trans hp)

theorem PowerStep.run_inv {start : ℕ} (hrun : ReflTransGen (PowerStep start) s t)
    (h : PowerInv start s.1 (s.2.foldl writeBlocks d0)) :
    PowerInv start t.1 (t.2.foldl writeBlocks d0) := by
  induction hrun with
  | refl => exact h
  | tail _ hstep ih => exact hstep.inv ih

/-- Crash atomicity: whenever the machine is up, its home blocks are the initial ones with
exactly those transactions applied, entirely and in order, whose header reached the disk, and
the header on the disk is empty. -/
theorem log_crash_atomic (start : ℕ) (d0 : ℕ → Block) (hempty : getLE (d0 start) 0 4 = 0)
    (m : Machine) (T : List Txn)
    (hrun : ReflTransGen (PowerStep start) (.off d0, []) (.on m, T)) :
    (∀ b, Home start b → m.disk b = T.foldl writeBlocks d0 b) ∧
      getLE (m.disk start) 0 4 = 0 := by
  have h := PowerStep.run_inv hrun (Recovers.of_empty hempty (fun _ _ => rfl))
  exact ⟨h.view.home, h.head⟩

/-- One block is logged, the power fails right after the header write, then again during
recovery, and the second recovery finishes. -/
theorem log_crash_atomic_twice : ∃ m : Machine,
    ReflTransGen (PowerStep 2) (.off fun _ => zeroBlock, []) (.on m, [[(50, fun _ => 7)]]) ∧
      m.disk 50 = (fun _ => 7) ∧ m.disk 51 = zeroBlock ∧ getLE (m.disk 2) 0 4 = 0 := by
  set m1 := after (initlog 0 ROOTDEV 2) (boot fun _ => zeroBlock) with hm1
  have h1 : initlog 0 ROOTDEV 2 (boot fun _ => zeroBlock) = .ok () m1 :=
    eq_ok_of_returns (by decide +kernel)
  set ws := (newWrites m1 (after (transaction 0 [(50, fun _ => 7)]) m1)).take 2 with hws
  set vs := (after (initlog 0 ROOTDEV 2) (boot (writeBlocks m1.disk ws))).writes.take 1 with hvs
  set d := writeBlocks (writeBlocks m1.disk ws) vs with hd
  have h2 : initlog 0 ROOTDEV 2 (boot d) = .ok () (after (initlog 0 ROOTDEV 2) (boot d)) :=
    eq_ok_of_returns (by decide +kernel)
  have hT : committedAfter 2 [] [(50, fun _ => 7)] ws = [[(50, fun _ => 7)]] := by
    have hhead : headWritten 2 ws = true := by decide +kernel
    rw [committedAfter, if_pos hhead, List.nil_append]
  have hok : TxnOk 2 [(50, fun _ => 7)] := by
    intro w hw
    rw [List.mem_singleton.mp hw]
    unfold Home
    decide
  have hcrash := PowerStep.crash (T := []) 0 _ 2 hok hws
  rw [hT] at hcrash
  have hrun : ReflTransGen (PowerStep 2) (.off fun _ => zeroBlock, [])
      (.on (after (initlog 0 ROOTDEV 2) (boot d)), [[(50, fun _ => 7)]]) :=
    (((ReflTransGen.single (PowerStep.recover 0 h1)).tail hcrash).tail
      (PowerStep.recoverCrash 0 1 hvs)).tail (PowerStep.recover 0 h2)
  obtain ⟨hhome,hhead⟩ := log_crash_atomic 2 (fun _ => zeroBlock) (by decide) _ _ hrun
  refine ⟨_, hrun, ?_, ?_, hhead⟩
  · rw [hhome 50 (by unfold Home; decide)]
    rfl
  · rw [hhome 51 (by unfold Home; decide)]
    rfl

end Xv6
