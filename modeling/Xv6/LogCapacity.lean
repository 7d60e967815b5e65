import Xv6.BufferRefs
import Xv6.LogFrame

/-! Whether an operation that `begin_op` has admitted can panic. A process waits for the lock of a
buffer with a reference to it. -/
namespace Xv6
open StateOutcome Relation Function

structure GroupState where
  ops : OpState
  /-- The references that processes have, locked or waiting for the lock. -/
  refs : List (ℕ × Fin NBUF)
  /-- What was passed to `log_write` since the last commit. -/
  since : List ℕ

inductive GroupCall where
  | op (c : OpCall)
  /-- The two parts of `bread`, a change to the data, and `brelse`. -/
  | find (b : ℕ) | lock (i : Fin NBUF) | write (i : Fin NBUF) (v : Block) | release (i : Fin NBUF)

namespace GroupState

def permits (s : GroupState) (p : ℕ) : OpCall → Bool
  | .logWrite i => (s.ops.m.buf i).lock == some p
  | _ => true

def sinceAfter (s : GroupState) : OpCall → List ℕ
  | .logWrite i => (s.ops.m.buf i).blockno :: s.since
  | .finish => []
  | _ => s.since

/-- Process `p` calls the cache; `refs` is what it makes of the references. -/
def useCache {α : Type} (s : GroupState) (x : Kern α) (refs : α → List (ℕ × Fin NBUF)) :
    Option GroupState :=
  match x s.ops.m with
  | .ok a m' => some { s with ops := { s.ops with m := m' }, refs := refs a }
  | .error _ _ => none

def step (s : GroupState) (p : ℕ) : GroupCall → Option GroupState
  | .op c =>
    if s.permits p c then
      (s.ops.step p c).map fun ops => { s with ops := ops, since := s.sinceAfter c }
    else none
  | .find b => s.useCache (bgetRef ROOTDEV b) fun i => (p, i) :: s.refs
  | .lock i =>
    if (p, i) ∈ s.refs then
      s.useCache (do acquiresleep p i; breadFill i) fun _ => s.refs
    else none
  | .write i v =>
    if (s.ops.m.buf i).lock = some p then s.useCache (setData i v) fun _ => s.refs else none
  | .release i => s.useCache (brelse p i) fun _ => s.refs.erase (p, i)

/-- Any process makes a step. -/
def Step (s s' : GroupState) : Prop := ∃ p c, s.step p c = some s'

end GroupState

/-- What the log has pinned while a process commits. -/
def CommitPoint.pins (lh : List ℕ) : CommitPoint → List ℕ
  | .install tail => lh.drop tail
  | .clear => []
  | _ => lh

/-- After `log.lh.n = 0`, or when it was zero before. -/
def CommitPoint.Emptied : CommitPoint → Prop
  | .erase | .done => True
  | _ => False

/-- A step of a commit keeps count of the references, and it panics only if no buffer is free. -/
theorem commitStep_refs {refs : List (ℕ × Fin NBUF)} {m : Machine} {x : CommitPoint} (p : ℕ)
    (h : RefsOk (x.pins m.log.lh) refs m) (hdev : m.log.dev = ROOTDEV) (hn : m.log.lh.Nodup)
    (hempty : x.Emptied → m.log.lh = []) :
    post (commitStep p x) m (fun y m' => RefsOk (y.pins m'.log.lh) refs m' ∧
      (y.Emptied → m'.log.lh = [])) (fun e _ => e = .asleep ∨ NoneFree m) := by
  -- A step that calls `f`, which leaves the log alone, and goes to `y`.
  have hcall (f : Kern Unit) (y : CommitPoint) (hf : SameLog f)
      (hpost : post f m (fun _ => RefsOk (y.pins m.log.lh) refs)
        (fun e _ => e = .asleep ∨ NoneFree m)) (hy : y.Emptied → m.log.lh = []) :
      post (do f; return y) m (fun y m' => RefsOk (y.pins m'.log.lh) refs m' ∧
        (y.Emptied → m'.log.lh = [])) (fun e _ => e = .asleep ∨ NoneFree m) := by
    apply post_bind_of (post_errors (post_and hpost (hf m)) fun _ _ he => he.1)
    rintro _ m' ⟨h', hlog⟩
    rw [post_pure, hlog]
    exact ⟨h', hy⟩
  cases x with
  | start =>
    change RefsOk (CommitPoint.pins m.log.lh (if m.log.lh.length > 0 then .copy 0 else .done)) refs m ∧
      (CommitPoint.Emptied (if m.log.lh.length > 0 then .copy 0 else .done) → m.log.lh = [])
    split_ifs with hlen
    · exact ⟨h, False.elim⟩
    · exact ⟨h, fun _ => List.length_eq_zero_iff.mp (by omega)⟩
  | copy tail =>
    rw [post, commitStep_copy]
    cases hb : m.log.lh[tail]? with
    | some b =>
      exact hcall _ (.copy (tail+1)) (.writeLogBlock p tail b)
        (h.writeLogBlock_post p tail hdev (List.mem_of_getElem? hb)) False.elim
    | none => exact ⟨h, False.elim⟩
  | head => exact hcall _ (.install 0) (.writeHead p) (h.writeHead_post p hdev) False.elim
  | install tail =>
    rw [post, commitStep_install]
    cases hb : m.log.lh[tail]? with
    | some b =>
      obtain ⟨hlt, rfl⟩ := List.getElem?_eq_some_iff.mp hb
      have hdrop := List.drop_eq_getElem_cons hlt
      have h' : RefsOk (m.log.lh[tail] :: m.log.lh.drop (tail+1)) refs m := hdrop ▸ h
      have hnodup := hn.sublist (List.drop_sublist tail m.log.lh)
      rw [hdrop] at hnodup
      exact hcall _ (.install (tail+1)) (.installBlock p false tail _)
        (h'.installBlock_post p tail hdev (List.nodup_cons.mp hnodup).1) False.elim
    | none =>
      have hnil := List.drop_eq_nil_of_le (List.getElem?_eq_none_iff.mp hb)
      refine ⟨?_, False.elim⟩
      change RefsOk [] refs m
      rw [← hnil]
      exact h
  | clear => exact ⟨h.congr rfl rfl, fun _ => rfl⟩
  | erase => exact hcall _ .done (.writeHead p) (h.writeHead_post p hdev) fun _ => hempty trivial
  | done => exact ⟨h, fun _ => hempty trivial⟩

/-- The blocks that the log has pinned. -/
structure OpState.Pins (s : OpState) (pins : List ℕ) : Prop where
  commits : ∀ p x, s.op p = .commits x → pins = x.pins s.m.log.lh
  idle : (∀ p x, s.op p ≠ .commits x) → pins = s.m.log.lh

structure GroupInv (s : GroupState) : Prop where
  ops : ∃ active, OpInv s.ops active
  dev : s.ops.m.log.dev = ROOTDEV
  refs : ∃ pins, s.ops.Pins pins ∧ RefsOk pins s.refs s.ops.m
  emptied : ∀ p x, s.ops.op p = .commits x → x.Emptied → s.ops.m.log.lh = []
  since : ∀ b ∈ s.ops.m.log.lh, b ∈ s.since

namespace GroupInv

variable {s s' : GroupState} {p : ℕ}

variable {ops : OpState}

theorem quiet (hops : ∃ active, OpInv ops active)
    (hdev : ops.m.log.dev = ROOTDEV) (hnone : ∀ q x, ops.op q ≠ .commits x)
    {refs : List (ℕ × Fin NBUF)} (hrefs : RefsOk ops.m.log.lh refs ops.m) {since : List ℕ}
    (hsince : ∀ b ∈ ops.m.log.lh, b ∈ since) : GroupInv ⟨ops, refs, since⟩ :=
  ⟨hops, hdev, ⟨_, ⟨fun q x hq => absurd hq (hnone q x), fun _ => rfl⟩, hrefs⟩,
    fun q x hq => absurd hq (hnone q x), hsince⟩

theorem update_not_commits {op : ℕ → OpPoint} {new : OpPoint}
    (h : ∀ q x, q ≠ p → op q ≠ .commits x) (hnew : ∀ x, new ≠ .commits x) (q : ℕ)
    (x : CommitPoint) : update op p new q ≠ .commits x := by
  by_cases hqp : q = p
  · rw [hqp, update_self]
    exact hnew x
  · rw [update_of_ne hqp]
    exact h q x hqp

theorem beginOp (h : GroupInv s) (hstep : s.ops.step p .beginOp = some ops) :
    GroupInv { s with ops := ops } := by
  obtain ⟨active, hops⟩ := h.ops
  have hops' := hops.call hstep
  obtain ⟨-, hc, -, rfl⟩ := OpState.step_beginOp hstep
  have hnone := hops.not_commits hc
  obtain ⟨pins, hpins, hrefs⟩ := h.refs
  obtain rfl := hpins.idle hnone
  exact quiet hops' h.dev (update_not_commits (fun q x _ => hnone q x) (by simp))
    (hrefs.congr rfl rfl) h.since

theorem logWrite (h : GroupInv s) {i : Fin NBUF} (hlock : (s.ops.m.buf i).lock = some p)
    (hstep : s.ops.step p (.logWrite i) = some ops) :
    GroupInv ⟨ops, s.refs, (s.ops.m.buf i).blockno :: s.since⟩ := by
  obtain ⟨active, hops⟩ := h.ops
  have hops' := hops.call hstep
  obtain ⟨epoch, logged, m', hop, hrun, -, rfl⟩ := OpState.step_logWrite hstep
  have hnone := hops.not_commits (hops.of_inside hop).2.1
  obtain ⟨pins, hpins, hrefs⟩ := h.refs
  obtain rfl := hpins.idle hnone
  have hrefs' := post_ok (hrefs.logWrite_post (hrefs.dev _ (hrefs.locked i p hlock))) hrun
  obtain ⟨-, hlog⟩ := post_ok (logWrite_log s.ops.m i) hrun
  refine quiet hops' ?_ (update_not_commits (fun q x _ => hnone q x) (by simp)) hrefs' fun b hb => ?_
  · rw [hlog]
    exact h.dev
  · rw [hlog] at hb
    split at hb
    · exact List.mem_cons_of_mem _ (h.since b hb)
    · rcases List.mem_append.mp hb with hb | hb
      · exact List.mem_cons_of_mem _ (h.since b hb)
      · rw [List.mem_singleton.mp hb]
        exact List.mem_cons_self

theorem endOp (h : GroupInv s) (hstep : s.ops.step p .endOp = some ops) :
    GroupInv { s with ops := ops } := by
  obtain ⟨active, hops⟩ := h.ops
  have hops' := hops.call hstep
  obtain ⟨epoch, logged, doCommit, hop, -, rfl⟩ := OpState.step_endOp hstep
  have hnone := hops.not_commits (hops.of_inside hop).2.1
  obtain ⟨pins, hpins, hrefs⟩ := h.refs
  obtain rfl := hpins.idle hnone
  have hstart (q : ℕ) (x : CommitPoint) (hq : update s.ops.op p
      (if doCommit then .commits .start else .outside) q = .commits x) : x = .start := by
    by_cases hqp : q = p
    · rw [hqp, update_self] at hq
      split at hq
      · exact (OpPoint.commits.inj hq).symm
      · cases hq
    · rw [update_of_ne hqp] at hq
      exact absurd hq (hnone q x)
  refine ⟨hops', h.dev, ⟨s.ops.m.log.lh, ⟨fun q x hq => ?_, fun _ => rfl⟩, hrefs.congr rfl rfl⟩,
    fun q x hq hx => ?_, h.since⟩
  · rw [hstart q x hq]
    rfl
  · rw [hstart q x hq] at hx
    exact hx.elim

theorem commit (h : GroupInv s) (hstep : s.ops.step p .commit = some ops) :
    GroupInv { s with ops := ops } := by
  obtain ⟨active, hops⟩ := h.ops
  have hops' := hops.call hstep
  obtain ⟨x, y, m', hop, hrun, rfl⟩ := OpState.step_commit hstep
  obtain ⟨pins, hpins, hrefs⟩ := h.refs
  obtain rfl := hpins.commits p x hop
  obtain ⟨hlog, -⟩ := post_ok (commitStep_post p x s.ops.m) hrun
  obtain ⟨hrefs', hempty⟩ := post_ok (commitStep_refs p hrefs h.dev hops.nodup (h.emptied p x hop))
    hrun
  have hself (q : ℕ) (z : CommitPoint)
      (hq : update s.ops.op p (.commits y) q = .commits z) : z = y := by
    by_cases hqp : q = p
    · rw [hqp, update_self] at hq
      exact (OpPoint.commits.inj hq).symm
    · rw [update_of_ne hqp, hops.others_outside hop hqp] at hq
      cases hq
  refine ⟨hops', ?_, ⟨y.pins m'.log.lh, ⟨fun q z hq => ?_, fun hno => ?_⟩, hrefs'⟩,
    fun q z hq hz => ?_, fun b hb => ?_⟩
  · rw [hlog]
    split <;> exact h.dev
  · rw [hself q z hq]
  · exact absurd (update_self ..) (hno p y)
  · rw [hself q z hq] at hz
    exact hempty hz
  · rw [hlog] at hb
    split at hb
    · cases hb
    · exact h.since b hb

theorem finish (h : GroupInv s) (hstep : s.ops.step p .finish = some ops) :
    GroupInv ⟨ops, s.refs, []⟩ := by
  obtain ⟨active, hops⟩ := h.ops
  have hops' := hops.call hstep
  obtain ⟨hop, rfl⟩ := OpState.step_finish hstep
  obtain ⟨pins, hpins, hrefs⟩ := h.refs
  obtain rfl := hpins.commits p .done hop
  have hempty := h.emptied p .done hop trivial
  refine quiet hops' h.dev (update_not_commits (fun q x hqp hq => ?_) (by simp))
    (hrefs.congr rfl rfl) fun b hb => ?_
  · rw [hops.others_outside hop hqp] at hq
    cases hq
  · rw [hempty] at hb
    cases hb

theorem useCache {α : Type} (h : GroupInv s) {x : Kern α} {refs : α → List (ℕ × Fin NBUF)}
    (hstep : s.useCache x refs = some s') (hlog : SameLog x)
    (hx : ∀ pins, RefsOk pins s.refs s.ops.m →
      post x s.ops.m (fun a m' => RefsOk pins (refs a) m') (fun _ _ => True)) : GroupInv s' := by
  rw [GroupState.useCache] at hstep
  split at hstep
  · rename_i a m' hrun
    cases hstep
    have hsame := post_ok (hlog s.ops.m) hrun
    obtain ⟨active, hops⟩ := h.ops
    obtain ⟨pins, hpins, hrefs⟩ := h.refs
    have hrefs' := post_ok (hx pins hrefs) hrun
    refine ⟨⟨active, hops.other hsame⟩, ?_, ⟨pins, ⟨fun q x hq => ?_, fun hno => ?_⟩, hrefs'⟩,
      fun q x hq hx => ?_, fun b hb => ?_⟩
    · rw [hsame]
      exact h.dev
    · rw [hpins.commits q x hq]
      rw [hsame]
    · rw [hpins.idle hno]
      rw [hsame]
    · rw [hsame]
      exact h.emptied q x hq hx
    · rw [hsame] at hb
      exact h.since b hb
  · cases hstep

theorem step (h : GroupInv s) (hstep : s.Step s') : GroupInv s' := by
  obtain ⟨p, c, hstep⟩ := hstep
  cases c with
  | op c =>
    obtain ⟨hpermits, hstep⟩ := Option.ite_none_right_eq_some.mp hstep
    obtain ⟨ops, hops, rfl⟩ := Option.map_eq_some_iff.mp hstep
    cases c with
    | beginOp => exact h.beginOp hops
    | logWrite i => exact h.logWrite (beq_iff_eq.mp hpermits) hops
    | endOp => exact h.endOp hops
    | commit => exact h.commit hops
    | finish => exact h.finish hops
  | find b =>
    refine h.useCache hstep (.bgetRef ROOTDEV b) fun pins hrefs => ?_
    exact post_imp (post_true (hrefs.bgetRef_post p b)) (fun _ _ hq => hq.1)
  | lock i =>
    obtain ⟨hmem, hstep⟩ := Option.ite_none_right_eq_some.mp hstep
    refine h.useCache hstep (.bind (.acquiresleep p i) fun _ => .breadFill i) fun pins hrefs => ?_
    apply post_bind_of (post_true (hrefs.acquiresleep_post hmem))
    rintro _ m1 ⟨h1, -, -⟩
    exact post_imp (post_true (h1.breadFill_post (h1.dev _ hmem))) (fun _ _ hq => hq.1)
  | write i v =>
    obtain ⟨hlock, hstep⟩ := Option.ite_none_right_eq_some.mp hstep
    refine h.useCache hstep (.modBuf i _) fun pins hrefs => ?_
    have hdev := hrefs.dev _ (hrefs.locked i p hlock)
    exact hrefs.setData hdev rfl rfl rfl (hrefs.locked i)
  | release i =>
    refine h.useCache hstep (.brelse p i) fun pins hrefs => ?_
    by_cases hlock : (s.ops.m.buf i).lock = some p
    · exact post_imp (post_true (hrefs.brelse_post hlock)) (fun _ _ hq => hq.1)
    · simp [brelse, holdingsleep, hlock]

end GroupInv

structure GroupState.Start (s : GroupState) : Prop where
  ops : s.ops.Start
  dev : s.ops.m.log.dev = ROOTDEV
  unused : RefsOk [] s.refs s.ops.m
  since : s.since = []

def GroupState.initial (m : Machine) : GroupState :=
  ⟨⟨m, fun _ => .outside, [], []⟩, [], []⟩

theorem initial_start {start p : ℕ} {d : ℕ → Block} {m : Machine}
    (hl : Logged start (headEntries (d start)))
    (hinit : initlog p ROOTDEV start (boot d) = .ok () m) : (GroupState.initial m).Start := by
  obtain ⟨hidle, -⟩ := post_ok (initlog_boot (p := p) ⟨hl, fun _ _ => rfl⟩) hinit
  have hkeeps := post_ok (recoverFromLog_keeps (p := p) (boot_view start d) hl.toLogList) hinit
  have hnone (i : Fin NBUF) : (m.buf i).lock = none := by
    by_contra hne
    have hold := hkeeps.unlocked i List.not_mem_nil (Option.isSome_iff_ne_none.mpr hne)
    exact absurd hold (by simp [boot])
  refine ⟨⟨hidle.lh, hidle.outstanding, fun _ => rfl, rfl⟩, hidle.view.logDev,
    ⟨hidle.view.inList, fun i j hi hj hb => ?_, fun i => ?_, List.forall_mem_nil _,
      List.forall_mem_nil _, fun i q hq => ?_⟩, rfl⟩
  · change (m.buf i).dev = ROOTDEV at hi
    exact hidle.view.unique i j (by rw [hi]; decide) (hi.trans hj.symm) hb
  · change (m.buf i).refcnt = _
    rw [hidle.view.refs i, hnone i]
    rfl
  · change (m.buf i).lock = some q at hq
    rw [hnone i] at hq
    cases hq

variable {s : GroupState}

theorem GroupState.Start.inv (h : s.Start) : GroupInv s := by
  refine ⟨⟨_, h.ops.inv⟩, h.dev, ⟨[], ⟨fun p x hp => ?_, fun _ => h.ops.lh.symm⟩, h.unused⟩,
    fun p x hp => ?_, fun b hb => ?_⟩
  · rw [h.ops.op p] at hp
    cases hp
  · rw [h.ops.op p] at hp
    cases hp
  · rw [h.ops.lh] at hb
    cases hb

theorem CommitPoint.pins_sublist (lh : List ℕ) (x : CommitPoint) : (x.pins lh).Sublist lh := by
  cases x with
  | install tail => exact List.drop_sublist tail lh
  | clear => exact List.nil_sublist lh
  | _ => exact List.Sublist.refl lh

theorem GroupState.Start.run {s0 : GroupState} (h : s0.Start)
    (hrun : ReflTransGen GroupState.Step s0 s) : GroupInv s := by
  induction hrun with
  | refl => exact h.inv
  | tail _ hstep ih => exact ih.step hstep

/-- Fewer than `LOGBLOCKS` different blocks were logged since the last commit. -/
def GroupState.Roomy (s : GroupState) : Prop := s.since.dedup.length < LOGBLOCKS

instance (s : GroupState) : Decidable s.Roomy := inferInstanceAs (Decidable (_ < _))

theorem GroupInv.lh_length (h : GroupInv s) (hroomy : s.Roomy) :
    s.ops.m.log.lh.length < LOGBLOCKS := by
  obtain ⟨active, hops⟩ := h.ops
  have hsub : s.ops.m.log.lh ⊆ s.since.dedup := fun b hb => List.mem_dedup.mpr (h.since b hb)
  exact (hops.nodup.subperm hsub).length_le.trans_lt hroomy

/-- Operations that each log at most `MAXOPBLOCKS` blocks, and together fewer than `LOGBLOCKS` from
one commit to the next: `log_write` returns whenever a process calls it in an operation with a
buffer it has locked, and while no process has a buffer no step of a commit panics. -/
theorem roomy_never_panics {s0 s : GroupState} (hstart : s0.Start)
    (hrun : ReflTransGen (fun s s' => s.Step s' ∧ s'.Roomy) s0 s) :
    (∀ p i epoch logged, s.ops.op p = .inside epoch logged → (s.ops.m.buf i).lock = some p →
      ∃ m', logWrite i s.ops.m = .ok () m') ∧
    ∀ p x, s.ops.op p = .commits x → s.refs = [] →
      ∀ e m', commitStep p x s.ops.m = .error e m' → e = .asleep := by
  have hinv : GroupInv s ∧ s.Roomy := by
    induction hrun with
    | refl =>
      refine ⟨hstart.inv, ?_⟩
      rw [GroupState.Roomy, hstart.since]
      decide
    | tail _ hstep ih => exact ⟨ih.1.step hstep.1, hstep.2⟩
  obtain ⟨h, hroomy⟩ := hinv
  have hlen := h.lh_length hroomy
  obtain ⟨active, hops⟩ := h.ops
  obtain ⟨pins, hpins, hrefs⟩ := h.refs
  refine ⟨fun p i epoch logged hop hlock => ?_, fun p x hop hnone e m' herror => ?_⟩
  · obtain ⟨hp, hc, -, -⟩ := hops.of_inside hop
    obtain rfl := hpins.idle (hops.not_commits hc)
    have hout : 0 < s.ops.m.log.outstanding := by
      rw [hops.outstanding]
      exact Finset.card_pos.mpr ⟨p, hp⟩
    have hpost := hrefs.logWrite_post (hrefs.dev _ (hrefs.locked i p hlock))
    cases hw : logWrite i s.ops.m with
    | ok u m' => exact ⟨m', rfl⟩
    | error e m' =>
      have := post_error hpost hw
      omega
  · obtain rfl := hpins.commits p x hop
    rw [hnone] at hrefs
    have hfree := hrefs.free ((x.pins_sublist _).length_le.trans_lt hlen)
    have hpost := commitStep_refs p hrefs h.dev hops.nodup (h.emptied p x hop)
    exact (post_error hpost herror).resolve_right hfree

def GroupState.run (ok : GroupState → Bool) (s : GroupState) :
    List (ℕ × GroupCall) → Option GroupState
  | [] => some s
  | (p, c) :: calls => ((s.step p c).filter ok).bind (run ok · calls)

theorem GroupState.run_steps {ok : GroupState → Bool} {R : GroupState → GroupState → Prop}
    (hR : ∀ s s', s.Step s' → ok s' = true → R s s') {s' : GroupState}
    {calls : List (ℕ × GroupCall)} (h : s.run ok calls = some s') : ReflTransGen R s s' := by
  induction calls generalizing s with
  | nil =>
    cases h
    exact .refl
  | cons a calls ih =>
    obtain ⟨s1, hfilter, hrest⟩ := Option.bind_eq_some_iff.mp h
    obtain ⟨hstep, hok⟩ := Option.filter_eq_some_iff.mp hfilter
    exact .head (hR _ _ ⟨a.1, a.2, hstep⟩ hok) (ih hrest)

def GroupState.empty : GroupState :=
  initial (after (initlog 0 ROOTDEV 2) (boot fun _ => zeroBlock))

theorem empty_start : GroupState.empty.Start := by
  refine initial_start (d := fun _ => zeroBlock) ?_ (eq_ok_of_returns (by decide +kernel))
  exact Logged.nil 2

instance : NeZero NBUF := ⟨by decide⟩

def logBlock (p b : ℕ) (i : Fin NBUF) : List (ℕ × GroupCall) :=
  [(p, .find b), (p, .lock i), (p, .op (.logWrite i))]

theorem roomy_never_panics_again : ∃ s, ReflTransGen (fun s s' => s.Step s' ∧ s'.Roomy)
    GroupState.empty s ∧ s.ops.op 0 = .inside 0 [100] ∧ (s.ops.m.buf 1).lock = some 0 ∧
    ∃ m', logWrite 1 s.ops.m = .ok () m' := by
  have hrun : (GroupState.empty.run (fun s => decide s.Roomy)
      ((0, .op .beginOp) :: logBlock 0 100 1)).map
        (fun s => (s.ops.op 0, (s.ops.m.buf 1).lock)) = some (.inside 0 [100], some 0) := by
    decide +kernel
  obtain ⟨s, hs, hends⟩ := Option.map_eq_some_iff.mp hrun
  obtain ⟨hop, hlock⟩ := Prod.mk.inj hends
  have hreach : ReflTransGen (fun s s' => s.Step s' ∧ s'.Roomy) GroupState.empty s :=
    GroupState.run_steps (fun _ _ hstep hok => ⟨hstep, of_decide_eq_true hok⟩) hs
  exact ⟨s, hreach, hop, hlock, (roomy_never_panics empty_start hreach).1 0 1 0 [100] hop hlock⟩

/-! A full log. -/

def fillLog : List (ℕ × GroupCall) :=
  [(0, .op .beginOp), (1, .op .beginOp), (2, .op .beginOp)] ++
    ((List.finRange NBUF).dropLast.flatMap fun k =>
      logBlock (k.val/MAXOPBLOCKS) (100+k.val) (k+1) ++ [(k.val/MAXOPBLOCKS, .release (k+1))]) ++
    logBlock 2 129 0

def endFull : List (ℕ × GroupCall) :=
  [(2, .release 0), (0, .op .endOp), (1, .op .endOp), (2, .op .endOp), (2, .op .commit)]

def panicOf {α : Type} (x : Kern α) (m : Machine) : Option String :=
  match x m with
  | .error (.panic msg) _ => some msg
  | _ => none

/-- With `LOGBLOCKS` blocks in the log an operation that logs one of its blocks again panics, and so
does the commit, although no process has a buffer. -/
theorem full_log_panics : GroupState.empty.Start ∧
    (∃ s, ReflTransGen GroupState.Step GroupState.empty s ∧
      s.ops.op 2 = .inside 0 (List.range' 120 MAXOPBLOCKS).reverse ∧
      (s.ops.m.buf 0).lock = some 2 ∧ (s.ops.m.buf 0).blockno ∈ s.ops.m.log.lh ∧
      panicOf (logWrite 0) s.ops.m = some "too big a transaction") ∧
    ∃ s, ReflTransGen GroupState.Step GroupState.empty s ∧
      s.ops.op 2 = .commits (.copy 0) ∧ s.refs = [] ∧
      panicOf (commitStep 2 (.copy 0)) s.ops.m = some "bget: no buffers" := by
  have hreach (calls : List (ℕ × GroupCall)) (s : GroupState)
      (hs : GroupState.empty.run (fun _ => true) calls = some s) :
      ReflTransGen GroupState.Step GroupState.empty s :=
    GroupState.run_steps (fun _ _ hstep _ => hstep) hs
  refine ⟨empty_start, ?_, ?_⟩
  · have hrun : (GroupState.empty.run (fun _ => true) fillLog).map (fun s =>
        (s.ops.op 2, (s.ops.m.buf 0).lock, decide ((s.ops.m.buf 0).blockno ∈ s.ops.m.log.lh),
          panicOf (logWrite 0) s.ops.m)) =
        some (.inside 0 (List.range' 120 MAXOPBLOCKS).reverse, some 2, true,
          some "too big a transaction") := by
      decide +kernel
    obtain ⟨s, hs, hends⟩ := Option.map_eq_some_iff.mp hrun
    obtain ⟨hop, hends⟩ := Prod.mk.inj hends
    obtain ⟨hlock, hends⟩ := Prod.mk.inj hends
    obtain ⟨hmem, hpanic⟩ := Prod.mk.inj hends
    exact ⟨s, hreach _ s hs, hop, hlock, of_decide_eq_true hmem, hpanic⟩
  · have hrun : (GroupState.empty.run (fun _ => true) (fillLog ++ endFull)).map (fun s =>
        (s.ops.op 2, s.refs, panicOf (commitStep 2 (.copy 0)) s.ops.m)) =
        some (.commits (.copy 0), [], some "bget: no buffers") := by
      decide +kernel
    obtain ⟨s, hs, hends⟩ := Option.map_eq_some_iff.mp hrun
    obtain ⟨hop, hends⟩ := Prod.mk.inj hends
    obtain ⟨hrefs, hpanic⟩ := Prod.mk.inj hends
    exact ⟨s, hreach _ s hs, hop, hrefs, hpanic⟩

end Xv6
