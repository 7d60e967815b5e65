import Xv6.LogAtomic
import Mathlib.Algebra.Order.BigOperators.Group.Finset

/-! Group commit, kernel/log.c. What processes do under `log.lock` is one step, and so is each turn
of the loops of `commit`, which runs without the lock. A turn is not split: its two `bread`s, the
`bwrite` and the two `brelse`s happen at once, so that others see its buffers only before or after
it, and while one of them is locked the turn has to wait. That a process which commits has buffers
of its own is left to the steps of the cache, which it can make like any other. -/
namespace Xv6
open StateOutcome Relation Function

/-- The first section of `end_op`; it returns `do_commit`. -/
def endOpFirst : Kern Bool := do
  modify fun m => { m with log := { m.log with outstanding := m.log.outstanding-1 } }
  let m ← get
  if m.log.committing then
    throw (.panic "log.committing")
  else if m.log.outstanding = 0 then
    modify fun m => { m with log := { m.log with committing := true } }
    return true
  else
    return false

/-- The section of `end_op` after `commit`. -/
def endOpLast : Kern Unit :=
  modify fun m => { m with log := { m.log with committing := false } }

/-- Where a process is in `commit`: at its test, in the loop of `write_log`, before the first
`write_head`, in the loop of `install_trans`, before `log.lh.n = 0`, before the second `write_head`,
at its end. -/
inductive CommitPoint where
  | start | copy (tail : ℕ) | head | install (tail : ℕ) | clear | erase | done
  deriving DecidableEq

def commitStep (p : ℕ) : CommitPoint → Kern CommitPoint
  | .start => do
    let m ← get
    return if m.log.lh.length > 0 then .copy 0 else .done
  | .copy tail => do
    let m ← get
    match m.log.lh[tail]? with
    | some b =>
      writeLogBlock p tail b
      return .copy (tail+1)
    | none => return .head
  | .head => do
    writeHead p
    return .install 0
  | .install tail => do
    let m ← get
    match m.log.lh[tail]? with
    | some b =>
      installBlock p false tail b
      return .install (tail+1)
    | none => return .clear
  | .clear => do
    setLh []
    return .erase
  | .erase => do
    writeHead p
    return .done
  | .done => return .done

/-! What the steps do to the log. -/

theorem beginOp_post (m : Machine) : post beginOp m (fun _ m' => m.log.committing = false ∧
    m.log.lh.length+(m.log.outstanding+1)*MAXOPBLOCKS ≤ LOGBLOCKS ∧
    m' = { m with log := { m.log with outstanding := m.log.outstanding+1 } })
    (fun _ m' => m' = m) := by
  unfold beginOp
  rw [post_bind, post_get]
  split_ifs with hc hfull
  · rfl
  · rfl
  · exact ⟨by simpa using hc, by omega, rfl⟩

theorem logWrite_log (m : Machine) (i : Fin NBUF) :
    post (logWrite i) m (fun _ m' => m.log.lh.length < LOGBLOCKS ∧
      m'.log = { m.log with lh := if (m.buf i).blockno ∈ m.log.lh then m.log.lh
        else m.log.lh ++ [(m.buf i).blockno] }) (fun _ m' => m' = m) := by
  unfold logWrite
  rw [post_bind, post_get]
  by_cases hfull : m.log.lh.length ≥ LOGBLOCKS
  · rw [if_pos hfull, post_throw]
  by_cases hout : m.log.outstanding < 1
  · rw [if_neg hfull, if_pos hout, post_throw]
  rw [if_neg hfull, if_neg hout]
  by_cases hb : (m.buf i).blockno ∈ m.log.lh
  · rw [if_pos hb, if_pos hb]
    exact ⟨by omega, rfl⟩
  · rw [if_neg hb, if_neg hb]
    exact ⟨by omega, rfl⟩

theorem endOpFirst_post (m : Machine) : post endOpFirst m (fun doCommit m' =>
    m.log.committing = false ∧ (doCommit = true ↔ m.log.outstanding-1 = 0) ∧
    m' = { m with log := { m.log with
      outstanding := m.log.outstanding-1
      committing := doCommit } }) (fun _ _ => m.log.committing = true) := by
  unfold endOpFirst
  rw [post_bind, post_modify, post_bind, post_get]
  split_ifs with hc hz
  · exact hc
  · exact ⟨by simpa using hc, by simpa using hz, rfl⟩
  · have hfalse : m.log.committing = false := by simpa using hc
    refine ⟨hfalse, by simpa using hz, ?_⟩
    rw [← hfalse]

/-- What leaves the log alone in memory. -/
def SameLog {α : Type} (x : Kern α) : Prop :=
  ∀ m, post x m (fun _ m' => m'.log = m.log) (fun _ m' => m'.log = m.log)

namespace SameLog

variable {α β : Type}

theorem bind {x : Kern α} {f : α → Kern β} (hx : SameLog x) (hf : ∀ a, SameLog (f a)) :
    SameLog (x >>= f) := by
  intro m
  rw [post_bind]
  refine post_imp (hx m) (fun a m' hm' => ?_)
  exact post_mono (hf a m') (fun _ _ h => h.trans hm') fun _ _ h => h.trans hm'

theorem pure (a : α) : SameLog (Pure.pure a) := fun _ => rfl

theorem get : SameLog MonadState.get := fun _ => rfl

theorem throw (e : Halt) : SameLog (MonadExcept.throw e : Kern α) := fun _ => rfl

theorem ite {c : Prop} [Decidable c] {x y : Kern α} (hx : SameLog x) (hy : SameLog y) :
    SameLog (if c then x else y) := by
  split
  · exact hx
  · exact hy

theorem modBuf (i : Fin NBUF) (f : Buf → Buf) : SameLog (Xv6.modBuf i f) := fun _ => rfl

theorem acquiresleep (p : ℕ) (i : Fin NBUF) : SameLog (Xv6.acquiresleep p i) := by
  refine bind get fun m => ?_
  cases (m.buf i).lock with
  | none => exact modBuf i _
  | some q => exact throw _

theorem bread (p dev b : ℕ) : SameLog (Xv6.bread p dev b) := by
  have hget : SameLog (Xv6.bget p dev b) := by
    refine bind get fun m => ?_
    cases m.lru.find? (cachedIn m dev b) with
    | some i => exact bind (modBuf i _) fun _ => bind (acquiresleep p i) fun _ => pure i
    | none =>
      cases m.lru.reverse.find? fun i => (m.buf i).refcnt == 0 with
      | some i => exact bind (modBuf i _) fun _ => bind (acquiresleep p i) fun _ => pure i
      | none => exact throw _
  refine bind hget fun i => bind get fun m => ?_
  exact ite (bind (fun _ => rfl) fun _ => bind (modBuf i _) fun _ => pure i) (pure i)

theorem bwrite (p : ℕ) (i : Fin NBUF) : SameLog (Xv6.bwrite p i) := by
  refine bind (bind get fun m => pure _) fun held => ?_
  exact ite (bind (throw _) fun _ => fun _ => rfl) fun _ => rfl

theorem brelse (p : ℕ) (i : Fin NBUF) : SameLog (Xv6.brelse p i) := by
  have hrest : SameLog (do
      Xv6.modBuf i fun b => { b with lock := none }
      Xv6.modBuf i fun b => { b with refcnt := b.refcnt-1 }
      modify fun m => if (m.buf i).refcnt = 0 then { m with lru := i :: m.lru.erase i } else m) := by
    refine bind (modBuf i _) fun _ => bind (modBuf i _) fun _ m => ?_
    rw [post_modify]
    split <;> rfl
  refine bind (bind get fun m => pure _) fun held => ?_
  exact ite (bind (throw _) fun _ => hrest) hrest

theorem writeLogBlock (p tail b : ℕ) : SameLog (Xv6.writeLogBlock p tail b) :=
  bind get fun _ => bind (bread _ _ _) fun _ => bind (bread _ _ _) fun _ => bind get fun _ =>
    bind (modBuf _ _) fun _ => bind (bwrite _ _) fun _ => bind (brelse _ _) fun _ => brelse _ _

theorem installBlock (p : ℕ) (recovering : Bool) (tail b : ℕ) :
    SameLog (Xv6.installBlock p recovering tail b) :=
  bind get fun _ => bind (bread _ _ _) fun _ => bind (bread _ _ _) fun _ => bind get fun _ =>
    bind (modBuf _ _) fun _ => bind (bwrite _ _) fun _ => bind (ite (pure _) (modBuf _ _)) fun _ =>
    bind (brelse _ _) fun _ => brelse _ _

theorem writeHead (p : ℕ) : SameLog (Xv6.writeHead p) :=
  bind get fun _ => bind (bread _ _ _) fun _ => bind get fun _ => bind (modBuf _ _) fun _ =>
    bind (bwrite _ _) fun _ => brelse _ _

end SameLog

theorem commitStep_copy (p tail : ℕ) (m : Machine) : commitStep p (.copy tail) m =
    match m.log.lh[tail]? with
    | some b => (do writeLogBlock p tail b; return CommitPoint.copy (tail+1)) m
    | none => .ok .head m := by
  change (match m.log.lh[tail]? with
    | some b => (do writeLogBlock p tail b; return CommitPoint.copy (tail+1))
    | none => (return .head : Kern CommitPoint)) m = _
  cases m.log.lh[tail]? <;> rfl

theorem commitStep_install (p tail : ℕ) (m : Machine) : commitStep p (.install tail) m =
    match m.log.lh[tail]? with
    | some b => (do installBlock p false tail b; return CommitPoint.install (tail+1)) m
    | none => .ok .clear m := by
  change (match m.log.lh[tail]? with
    | some b => (do installBlock p false tail b; return CommitPoint.install (tail+1))
    | none => (return .clear : Kern CommitPoint)) m = _
  cases m.log.lh[tail]? <;> rfl

/-! The operations of all processes. -/

/-- Where a process is: outside of operations; in one, with the number of commits before it and the
blocks that it has logged; or in `end_op`, committing. -/
inductive OpPoint where
  | outside
  | inside (epoch : ℕ) (logged : List ℕ)
  | commits (x : CommitPoint)
  deriving DecidableEq

structure OpState where
  m : Machine
  op : ℕ → OpPoint
  /-- What each commit so far has written to the header. -/
  commits : List (List ℕ)
  /-- The operations that have ended, each with the number of commits before it and its blocks. -/
  ended : List (ℕ × List ℕ)

inductive OpCall where
  | beginOp | logWrite (i : Fin NBUF) | endOp | commit | finish

/-- A step of process `p`. A call of `log_write` is part of a run if it leaves the operation with at
most `MAXOPBLOCKS` blocks. -/
def OpState.step (s : OpState) (p : ℕ) : OpCall → Option OpState
  | .beginOp =>
    match s.op p, beginOp s.m with
    | .outside, .ok _ m' =>
      some { s with m := m', op := update s.op p (.inside s.commits.length []) }
    | _, _ => none
  | .logWrite i =>
    match s.op p, logWrite i s.m with
    | .inside epoch logged, .ok _ m' =>
      let logged := logged.insert (s.m.buf i).blockno
      if logged.length ≤ MAXOPBLOCKS then
        some { s with m := m', op := update s.op p (.inside epoch logged) }
      else none
    | _, _ => none
  | .endOp =>
    match s.op p, endOpFirst s.m with
    | .inside epoch logged, .ok doCommit m' =>
      some { s with
        m := m'
        op := update s.op p (if doCommit then .commits .start else .outside)
        ended := (epoch, logged) :: s.ended }
    | _, _ => none
  | .commit =>
    match s.op p with
    | .commits x =>
      match commitStep p x s.m with
      | .ok y m' =>
        some { s with
          m := m'
          op := update s.op p (.commits y)
          commits := if x = .head then s.commits ++ [s.m.log.lh] else s.commits }
      | .error _ _ => none
    | _ => none
  | .finish =>
    match s.op p, endOpLast s.m with
    | .commits .done, .ok _ m' => some { s with m := m', op := update s.op p .outside }
    | _, _ => none

/-- A step of a process in the log, or anything that leaves `log` alone. -/
inductive OpStep (s : OpState) : OpState → Prop
  | call (p : ℕ) (c : OpCall) {s' : OpState} : s.step p c = some s' → OpStep s s'
  | other (m' : Machine) : m'.log = s.m.log → OpStep s { s with m := m' }

namespace OpState

variable {s s' : OpState} {p : ℕ}

theorem step_beginOp (h : s.step p .beginOp = some s') :
    s.op p = .outside ∧ s.m.log.committing = false ∧
    s.m.log.lh.length+(s.m.log.outstanding+1)*MAXOPBLOCKS ≤ LOGBLOCKS ∧
    s' = { s with
      m := { s.m with log := { s.m.log with outstanding := s.m.log.outstanding+1 } }
      op := update s.op p (.inside s.commits.length []) } := by
  rw [step] at h
  split at h
  · rename_i m' hop hrun
    obtain ⟨hc, hroom, rfl⟩ := post_ok (beginOp_post s.m) hrun
    exact ⟨hop, hc, hroom, (Option.some.inj h).symm⟩
  · cases h

theorem step_logWrite {i : Fin NBUF} (h : s.step p (.logWrite i) = some s') :
    ∃ epoch logged m', s.op p = .inside epoch logged ∧ logWrite i s.m = .ok () m' ∧
    (logged.insert (s.m.buf i).blockno).length ≤ MAXOPBLOCKS ∧
    s' = { s with
      m := m'
      op := update s.op p (.inside epoch (logged.insert (s.m.buf i).blockno)) } := by
  rw [step] at h
  split at h
  · rename_i epoch logged _ m' hop hrun
    obtain ⟨hlen, h⟩ := Option.ite_none_right_eq_some.mp h
    exact ⟨epoch, logged, m', hop, hrun, hlen, (Option.some.inj h).symm⟩
  · cases h

theorem step_endOp (h : s.step p .endOp = some s') :
    ∃ epoch logged doCommit, s.op p = .inside epoch logged ∧
    (doCommit = true ↔ s.m.log.outstanding-1 = 0) ∧
    s' = { s with
      m := { s.m with log := { s.m.log with
        outstanding := s.m.log.outstanding-1
        committing := doCommit } }
      op := update s.op p (if doCommit then .commits .start else .outside)
      ended := (epoch, logged) :: s.ended } := by
  rw [step] at h
  split at h
  · rename_i epoch logged doCommit m' hop hrun
    obtain ⟨-, hdo, rfl⟩ := post_ok (endOpFirst_post s.m) hrun
    exact ⟨epoch, logged, doCommit, hop, hdo, (Option.some.inj h).symm⟩
  · cases h

theorem step_commit (h : s.step p .commit = some s') :
    ∃ x y m', s.op p = .commits x ∧ commitStep p x s.m = .ok y m' ∧
    s' = { s with
      m := m'
      op := update s.op p (.commits y)
      commits := if x = .head then s.commits ++ [s.m.log.lh] else s.commits } := by
  rw [step] at h
  split at h
  · rename_i x hop
    split at h
    · rename_i y m' hrun
      exact ⟨x, y, m', hop, hrun, (Option.some.inj h).symm⟩
    · cases h
  · cases h

theorem step_finish (h : s.step p .finish = some s') :
    s.op p = .commits .done ∧ s' = { s with
      m := { s.m with log := { s.m.log with committing := false } }
      op := update s.op p .outside } := by
  rw [step] at h
  split at h
  · rename_i m' hop hrun
    obtain rfl := (EStateM.Result.ok.inj hrun).2
    exact ⟨hop, (Option.some.inj h).symm⟩
  · cases h

end OpState

/-! What the log has room for. -/

/-- How many blocks an operation may still add to the log. -/
def OpPoint.reserve : OpPoint → ℕ
  | .inside _ logged => MAXOPBLOCKS-logged.length
  | _ => 0

/-- After the first `write_head`, while `log.lh` is still there. -/
def CommitPoint.Written : CommitPoint → Prop
  | .install _ | .clear => True
  | _ => False

/-- The blocks of an operation are in the commit after it, or the log has them for that commit. -/
def OpState.Holds (s : OpState) (epoch : ℕ) (logged : List ℕ) : Prop :=
  (∃ c, s.commits[epoch]? = some c ∧ ∀ b ∈ logged, b ∈ c) ∨
    epoch = s.commits.length ∧ ∀ b ∈ logged, b ∈ s.m.log.lh

/-- What holds of a process by where it is; the operations of those in `active` are outstanding. -/
def OpState.PointOk (s : OpState) (active : Finset ℕ) (p : ℕ) : OpPoint → Prop
  | .outside => p ∉ active
  | .inside epoch logged => p ∈ active ∧ s.m.log.committing = false ∧ epoch = s.commits.length ∧
      ∀ b ∈ logged, b ∈ s.m.log.lh
  | .commits x => active = ∅ ∧ s.m.log.committing = true ∧
      (x.Written → ∀ o ∈ s.ended, o.1 ≠ s.commits.length)

structure OpInv (s : OpState) (active : Finset ℕ) : Prop where
  nodup : s.m.log.lh.Nodup
  outstanding : s.m.log.outstanding = active.card
  room : s.m.log.lh.length+∑ p ∈ active, (s.op p).reserve ≤ LOGBLOCKS
  points : ∀ p, s.PointOk active p (s.op p)
  one : ∀ p q x y, s.op p = .commits x → s.op q = .commits y → p = q
  ended : ∀ o ∈ s.ended, s.Holds o.1 o.2

namespace OpInv

variable {s s' : OpState} {active : Finset ℕ} {p : ℕ}

theorem sum_erase (op : ℕ → OpPoint) (p : ℕ) (x : OpPoint) (active : Finset ℕ) :
    ∑ q ∈ active.erase p, (update op p x q).reserve = ∑ q ∈ active.erase p, (op q).reserve := by
  refine Finset.sum_congr rfl fun q hq => ?_
  rw [update_of_ne (Finset.ne_of_mem_erase hq)]

theorem sum_le (op : ℕ → OpPoint) (active : Finset ℕ) :
    ∑ q ∈ active, (op q).reserve ≤ active.card*MAXOPBLOCKS := by
  refine Finset.sum_le_card_nsmul active _ MAXOPBLOCKS fun q _ => ?_
  cases op q with
  | inside epoch logged => exact Nat.sub_le ..
  | _ => exact Nat.zero_le _

variable {logged : List ℕ}

theorem of_inside (h : OpInv s active) {epoch : ℕ}
    (hop : s.op p = .inside epoch logged) : p ∈ active ∧ s.m.log.committing = false ∧
      epoch = s.commits.length ∧ ∀ b ∈ logged, b ∈ s.m.log.lh := by
  have hp := h.points p
  rwa [hop] at hp

theorem of_commits (h : OpInv s active) {x : CommitPoint} (hop : s.op p = .commits x) :
    active = ∅ ∧ s.m.log.committing = true ∧
      (x.Written → ∀ o ∈ s.ended, o.1 ≠ s.commits.length) := by
  have hp := h.points p
  rwa [hop] at hp

theorem not_commits (h : OpInv s active) (hc : s.m.log.committing = false) (q : ℕ)
    (x : CommitPoint) : s.op q ≠ .commits x := by
  intro hq
  rw [(h.of_commits hq).2.1] at hc
  cases hc

theorem points_update {op : ℕ → OpPoint} {new : OpPoint} (hp : s.PointOk active p new)
    (hother : ∀ q, q ≠ p → s.PointOk active q (op q)) (q : ℕ) :
    s.PointOk active q (update op p new q) := by
  by_cases hqp : q = p
  · rw [hqp, update_self]
    exact hp
  · rw [update_of_ne hqp]
    exact hother q hqp

theorem one_update {op : ℕ → OpPoint} {new : OpPoint}
    (h : ∀ q x, q ≠ p → op q ≠ .commits x) (q r : ℕ) (x y : CommitPoint)
    (hq : update op p new q = .commits x)
    (hr : update op p new r = .commits y) : q = r := by
  have hp (q : ℕ) (x : CommitPoint) (hq : update op p new q = .commits x) : q = p := by
    by_contra hqp
    rw [update_of_ne hqp] at hq
    exact h q x hqp hq
  rw [hp q x hq, hp r y hr]

section
variable (h : OpInv s active)
include h

theorem beginOp (hstep : s.step p .beginOp = some s') :
    OpInv s' (insert p active) := by
  obtain ⟨hop, hc, hroom, rfl⟩ := OpState.step_beginOp hstep
  have hp : p ∉ active := by
    have hpoint := h.points p
    rwa [hop] at hpoint
  have hnone := h.not_commits hc
  refine ⟨h.nodup, ?_, ?_, ?_, one_update fun q x _ => hnone q x, h.ended⟩
  · rw [Finset.card_insert_of_notMem hp, ← h.outstanding]
  · have hsum := sum_erase s.op p (.inside s.commits.length []) (insert p active)
    rw [Finset.erase_insert hp] at hsum
    change s.m.log.lh.length+∑ q ∈ insert p active,
      (update s.op p (.inside s.commits.length []) q).reserve ≤ LOGBLOCKS
    rw [Finset.sum_insert hp, hsum, update_self]
    calc
      s.m.log.lh.length+(MAXOPBLOCKS+∑ q ∈ active, (s.op q).reserve)
          ≤ s.m.log.lh.length+(MAXOPBLOCKS+active.card*MAXOPBLOCKS) := by
        have := sum_le s.op active
        omega
      _ = s.m.log.lh.length+(s.m.log.outstanding+1)*MAXOPBLOCKS := by
        rw [h.outstanding, Nat.add_one_mul, Nat.add_comm MAXOPBLOCKS]
      _ ≤ LOGBLOCKS := hroom
  · refine points_update ⟨Finset.mem_insert_self p active, hc, rfl, nofun⟩ fun q hqp => ?_
    have hq := h.points q
    cases hopq : s.op q with
    | outside =>
      rw [hopq] at hq
      exact fun hmem => hq ((Finset.mem_insert.mp hmem).resolve_left hqp)
    | inside epoch logged =>
      rw [hopq] at hq
      exact ⟨Finset.mem_insert_of_mem hq.1, hq.2⟩
    | commits x => exact absurd hopq (hnone q x)

/-- A new block takes one of those that its operation has reserved. -/
theorem room_logWrite {epoch b : ℕ} {lh : List ℕ}
    (hop : s.op p = .inside epoch logged) (hlen : (logged.insert b).length ≤ MAXOPBLOCKS)
    (hlh : lh = if b ∈ s.m.log.lh then s.m.log.lh else s.m.log.lh ++ [b]) :
    lh.length+∑ q ∈ active, (update s.op p (.inside epoch (logged.insert b)) q).reserve ≤
      LOGBLOCKS := by
  obtain ⟨hp, -, -, hsub⟩ := h.of_inside hop
  have hroom := h.room
  rw [← Finset.add_sum_erase active _ hp, hop] at hroom
  rw [← Finset.add_sum_erase active _ hp, sum_erase, update_self, hlh]
  change s.m.log.lh.length+(MAXOPBLOCKS-logged.length+_) ≤ _ at hroom
  change _+(MAXOPBLOCKS-(logged.insert b).length+_) ≤ _
  by_cases hb : b ∈ s.m.log.lh
  · rw [if_pos hb]
    have := List.length_le_length_insert (l := logged) (a := b)
    omega
  · have hb' : b ∉ logged := fun hmem => hb (hsub b hmem)
    rw [List.length_insert_of_not_mem hb'] at hlen ⊢
    rw [if_neg hb, List.length_append, List.length_singleton]
    omega

theorem logWrite {i : Fin NBUF} (hstep : s.step p (.logWrite i) = some s') :
    OpInv s' active := by
  obtain ⟨epoch, logged, m', hop, hrun, hlen, rfl⟩ := OpState.step_logWrite hstep
  obtain ⟨-, hlog⟩ := post_ok (logWrite_log s.m i) hrun
  obtain ⟨hp, hc, hepoch, hsub⟩ := h.of_inside hop
  have hnone := h.not_commits hc
  have hlh : m'.log.lh = if (s.m.buf i).blockno ∈ s.m.log.lh then s.m.log.lh
      else s.m.log.lh ++ [(s.m.buf i).blockno] := by rw [hlog]
  have hc' : m'.log.committing = false := by
    rw [hlog]
    exact hc
  have hkeep (b : ℕ) (hb : b ∈ s.m.log.lh) : b ∈ m'.log.lh := by
    rw [hlh]
    split
    · exact hb
    · exact List.mem_append_left _ hb
  have hnew : (s.m.buf i).blockno ∈ m'.log.lh := by
    rw [hlh]
    split
    · assumption
    · exact List.mem_append_right _ (List.mem_singleton_self _)
  refine ⟨?_, ?_, h.room_logWrite hop hlen hlh, ?_, one_update fun q x _ => hnone q x,
    fun o ho => ?_⟩
  · rw [hlh]
    split
    · exact h.nodup
    · rename_i hb
      exact List.Nodup.append h.nodup (List.nodup_singleton _) (by simpa using hb)
  · rw [hlog]
    exact h.outstanding
  · refine points_update ⟨hp, hc', hepoch, fun b hb => ?_⟩ fun q hqp => ?_
    · rcases List.mem_insert_iff.mp hb with rfl | hb
      · exact hnew
      · exact hkeep b (hsub b hb)
    · have hq := h.points q
      cases hopq : s.op q with
      | outside =>
        rw [hopq] at hq
        exact hq
      | inside epoch logged =>
        rw [hopq] at hq
        exact ⟨hq.1, hc', hq.2.2.1, fun b hb => hkeep b (hq.2.2.2 b hb)⟩
      | commits x => exact absurd hopq (hnone q x)
  · exact (h.ended o ho).imp_right fun hlater => ⟨hlater.1, fun b hb => hkeep b (hlater.2 b hb)⟩

theorem endOp (hstep : s.step p .endOp = some s') :
    OpInv s' (active.erase p) := by
  obtain ⟨epoch, logged, doCommit, hop, hdo, rfl⟩ := OpState.step_endOp hstep
  obtain ⟨hp, hc, hepoch, hsub⟩ := h.of_inside hop
  have hnone := h.not_commits hc
  have hcard : s.m.log.outstanding-1 = (active.erase p).card := by
    rw [Finset.card_erase_of_mem hp, h.outstanding]
  rw [hcard, Finset.card_eq_zero] at hdo
  refine ⟨h.nodup, hcard, ?_, ?_, one_update fun q x _ => hnone q x, fun o ho => ?_⟩
  · have hroom := h.room
    rw [← Finset.add_sum_erase active _ hp] at hroom
    change s.m.log.lh.length+∑ q ∈ active.erase p, (update s.op p _ q).reserve ≤ LOGBLOCKS
    rw [sum_erase]
    omega
  · refine points_update ?_ fun q hqp => ?_
    · cases doCommit with
      | true => exact ⟨hdo.mp rfl, rfl, nofun⟩
      | false => exact Finset.notMem_erase p active
    · have hq := h.points q
      cases hopq : s.op q with
      | outside =>
        rw [hopq] at hq
        exact fun hmem => hq (Finset.mem_of_mem_erase hmem)
      | inside epoch logged =>
        rw [hopq] at hq
        have hmem := Finset.mem_erase.mpr ⟨hqp, hq.1⟩
        refine ⟨hmem, ?_, hq.2.2⟩
        -- Another operation is outstanding, so that this one does not commit.
        cases doCommit with
        | true =>
          rw [hdo.mp rfl] at hmem
          exact absurd hmem (Finset.notMem_empty q)
        | false => rfl
      | commits x => exact absurd hopq (hnone q x)
  · rcases List.mem_cons.mp ho with rfl | ho
    · exact .inr ⟨hepoch, hsub⟩
    · exact h.ended o ho

theorem others_outside {x : CommitPoint} (hop : s.op p = .commits x) {q : ℕ}
    (hqp : q ≠ p) : s.op q = .outside := by
  have hq := h.points q
  cases hopq : s.op q with
  | outside => rfl
  | inside epoch logged =>
    rw [hopq, (h.of_commits hop).1] at hq
    exact absurd hq.1 (Finset.notMem_empty q)
  | commits y => exact absurd (h.one q p y x hopq hop) hqp

end

end OpInv

theorem commitStep_post (p : ℕ) (x : CommitPoint) (m : Machine) :
    post (commitStep p x) m (fun y m' =>
      m'.log = (if x = .clear then { m.log with lh := [] } else m.log) ∧
      (y.Written → x = .head ∨ x.Written ∧ x ≠ .clear)) (fun _ _ => True) := by
  -- A step that calls `f` and then goes to `y`.
  have hcall (f : Kern Unit) (y : CommitPoint) (hf : SameLog f) (hx : x ≠ .clear)
      (hy : y.Written → x = .head ∨ x.Written ∧ x ≠ .clear) : post (do f; return y) m (fun y m' =>
        m'.log = (if x = .clear then { m.log with lh := [] } else m.log) ∧
        (y.Written → x = .head ∨ x.Written ∧ x ≠ .clear)) (fun _ _ => True) := by
    rw [if_neg hx]
    exact post_bind_of (post_true (hf m)) fun _ _ h => ⟨h, hy⟩
  cases x with
  | start =>
    refine ⟨rfl, fun hw => ?_⟩
    split at hw <;> exact hw.elim
  | copy tail =>
    rw [post, commitStep_copy]
    cases m.log.lh[tail]? with
    | some b => exact hcall _ (.copy (tail+1)) (.writeLogBlock p tail b) nofun nofun
    | none => exact ⟨rfl, nofun⟩
  | head => exact hcall _ (.install 0) (.writeHead p) nofun fun _ => .inl rfl
  | install tail =>
    rw [post, commitStep_install]
    cases m.log.lh[tail]? with
    | some b =>
      exact hcall _ (.install (tail+1)) (.installBlock p false tail b) nofun
        fun _ => .inr ⟨trivial, nofun⟩
    | none => exact ⟨rfl, fun _ => .inr ⟨trivial, nofun⟩⟩
  | clear | done => exact ⟨rfl, nofun⟩
  | erase => exact hcall _ .done (.writeHead p) nofun nofun

namespace OpInv

variable {s s' : OpState} {active : Finset ℕ} {p : ℕ}

section
variable (h : OpInv s active)
include h

/-- What the operations have logged stays with the commit that takes it. -/
theorem holds_commit {x : CommitPoint} (hop : s.op p = .commits x)
    (hlh : s'.m.log.lh = if x = .clear then [] else s.m.log.lh)
    (hcommits : s'.commits = if x = .head then s.commits ++ [s.m.log.lh] else s.commits)
    {o : ℕ × List ℕ} (ho : o ∈ s.ended) : s'.Holds o.1 o.2 := by
  obtain ⟨-, -, hwritten⟩ := h.of_commits hop
  have hold := h.ended o ho
  by_cases hhead : x = .head
  · rw [OpState.Holds, hcommits, if_pos hhead]
    left
    rcases hold with ⟨c, hcommit, hsub⟩ | ⟨hnext, hsub⟩
    · have hlt := (List.getElem?_eq_some_iff.mp hcommit).1
      exact ⟨c, by rw [List.getElem?_append_left hlt, hcommit], hsub⟩
    · exact ⟨s.m.log.lh, by rw [hnext, List.getElem?_concat_length], hsub⟩
  · rw [OpState.Holds, hcommits, if_neg hhead, hlh]
    by_cases hclear : x = .clear
    · refine .inl (hold.resolve_right fun hnext => ?_)
      exact hwritten (by rw [hclear]; trivial) o ho hnext.1
    · rwa [if_neg hclear]

theorem commit (hstep : s.step p .commit = some s') : OpInv s' active := by
  obtain ⟨x, y, m', hop, hrun, rfl⟩ := OpState.step_commit hstep
  obtain ⟨hlog, hy⟩ := post_ok (commitStep_post p x s.m) hrun
  obtain ⟨hnobody, hc, hwritten⟩ := h.of_commits hop
  have hlh : m'.log.lh = if x = .clear then [] else s.m.log.lh := by
    rw [hlog]
    split <;> rfl
  have hsame : m'.log.outstanding = s.m.log.outstanding ∧ m'.log.committing = true := by
    rw [hlog]
    split <;> exact ⟨rfl, hc⟩
  refine ⟨?_, hsame.1.trans h.outstanding, ?_, ?_, ?_, fun o => h.holds_commit hop hlh rfl⟩
  · change m'.log.lh.Nodup
    rw [hlh]
    split
    · exact List.nodup_nil
    · exact h.nodup
  · have hroom := h.room
    rw [hnobody, Finset.sum_empty] at hroom ⊢
    change m'.log.lh.length+0 ≤ _
    rw [hlh]
    split
    · exact Nat.zero_le _
    · exact hroom
  · refine points_update ⟨hnobody, hsame.2, fun hw o ho => ?_⟩ fun q hqp => ?_
    · rcases hy hw with hhead | ⟨hx, -⟩
      · -- The commit that has just been written is the one these operations belong to.
        change o.1 ≠ (if x = .head then s.commits ++ [s.m.log.lh] else s.commits).length
        rw [if_pos hhead, List.length_append, List.length_singleton]
        rcases h.ended o ho with ⟨c, hcommit, -⟩ | ⟨hnext, -⟩
        · have hlt := (List.getElem?_eq_some_iff.mp hcommit).1
          omega
        · omega
      · have hne : x ≠ .head := by
          rintro rfl
          exact hx
        change o.1 ≠ (if x = .head then s.commits ++ [s.m.log.lh] else s.commits).length
        rw [if_neg hne]
        exact hwritten hx o ho
    · rw [h.others_outside hop hqp, hnobody]
      exact Finset.notMem_empty q
  · refine one_update fun q z hqp hq => ?_
    rw [h.others_outside hop hqp] at hq
    cases hq

theorem finish (hstep : s.step p .finish = some s') : OpInv s' active := by
  obtain ⟨hop, rfl⟩ := OpState.step_finish hstep
  obtain ⟨hnobody, -, -⟩ := h.of_commits hop
  refine ⟨h.nodup, h.outstanding, ?_, ?_, ?_, h.ended⟩
  · have hroom := h.room
    rw [hnobody] at hroom ⊢
    exact hroom
  · refine points_update ?_ fun q hqp => ?_
    · rw [hnobody]
      exact Finset.notMem_empty p
    · rw [h.others_outside hop hqp, hnobody]
      exact Finset.notMem_empty q
  · refine one_update fun q z hqp hq => ?_
    rw [h.others_outside hop hqp] at hq
    cases hq

theorem other {m' : Machine} (hlog : m'.log = s.m.log) :
    OpInv { s with m := m' } active := by
  refine ⟨?_, ?_, ?_, fun q => ?_, h.one, fun o ho => ?_⟩
  · rw [hlog]
    exact h.nodup
  · rw [hlog]
    exact h.outstanding
  · rw [hlog]
    exact h.room
  · have hq := h.points q
    cases hopq : s.op q with
    | outside =>
      rw [hopq] at hq
      exact hq
    | inside | commits =>
      rw [hopq] at hq
      rw [OpState.PointOk, hlog]
      exact hq
  · have hold := h.ended o ho
    rw [OpState.Holds] at hold ⊢
    rw [hlog]
    exact hold

theorem call {c : OpCall} (hstep : s.step p c = some s') : ∃ active', OpInv s' active' := by
  cases c with
  | beginOp => exact ⟨_, h.beginOp hstep⟩
  | logWrite i => exact ⟨_, h.logWrite hstep⟩
  | endOp => exact ⟨_, h.endOp hstep⟩
  | commit => exact ⟨_, h.commit hstep⟩
  | finish => exact ⟨_, h.finish hstep⟩

end

theorem run {s0 : OpState} (h : ∃ active, OpInv s0 active) (hrun : ReflTransGen OpStep s0 s) :
    ∃ active, OpInv s active := by
  induction hrun with
  | refl => exact h
  | tail _ hstep ih =>
    obtain ⟨active, h⟩ := ih
    cases hstep with
    | call p c hcall => exact h.call hcall
    | other m' hlog => exact ⟨active, h.other hlog⟩

end OpInv

structure OpState.Start (s : OpState) : Prop where
  lh : s.m.log.lh = []
  outstanding : s.m.log.outstanding = 0
  op : ∀ p, s.op p = .outside
  ended : s.ended = []

theorem OpState.Start.inv {s : OpState} (h : s.Start) : OpInv s ∅ := by
  refine ⟨?_, h.outstanding, ?_, fun p => ?_, fun p q x y hp => ?_, fun o ho => ?_⟩
  · rw [h.lh]
    exact List.nodup_nil
  · rw [h.lh]
    exact Nat.zero_le _
  · rw [h.op p]
    exact Finset.notMem_empty p
  · rw [h.op p] at hp
    cases hp
  · rw [h.ended] at ho
    cases ho

/-- In every run of operations that each log at most `MAXOPBLOCKS` blocks: the log has at most
`LOGBLOCKS` blocks, all different; a process commits only when no operation is outstanding, so that
nobody calls `log_write` while `committing` is set; at most one commits; and all blocks that an
operation has logged are in one commit, the next one after its `begin_op`. -/
theorem group_commit {s0 s : OpState} (hstart : s0.Start) (hrun : ReflTransGen OpStep s0 s) :
    s.m.log.lh.length ≤ LOGBLOCKS ∧ s.m.log.lh.Nodup ∧
    (∀ p x, s.op p = .commits x → s.m.log.outstanding = 0 ∧
      ∀ q epoch logged, s.op q ≠ .inside epoch logged) ∧
    (∀ p epoch logged, s.op p = .inside epoch logged → s.m.log.committing = false) ∧
    (∀ p q x y, s.op p = .commits x → s.op q = .commits y → p = q) ∧
    (∀ p epoch logged, s.op p = .inside epoch logged → s.Holds epoch logged) ∧
    ∀ epoch logged, (epoch, logged) ∈ s.ended → s.Holds epoch logged := by
  obtain ⟨active, h⟩ := OpInv.run ⟨_, hstart.inv⟩ hrun
  refine ⟨?_, h.nodup, fun p x hp => ⟨?_, fun q epoch logged hq => ?_⟩,
    fun p epoch logged hp => (h.of_inside hp).2.1, h.one, fun p epoch logged hp => ?_,
    fun epoch logged => h.ended _⟩
  · have := h.room
    omega
  · rw [h.outstanding, (h.of_commits hp).1, Finset.card_empty]
  · have hmem := (h.of_inside hq).1
    rw [(h.of_commits hp).1] at hmem
    exact Finset.notMem_empty q hmem
  · exact .inr (h.of_inside hp).2.2

def OpState.run (s : OpState) : List (ℕ × OpCall) → Option OpState
  | [] => some s
  | (p, c) :: calls => (s.step p c).bind (run · calls)

theorem OpState.run_steps {s s' : OpState} {calls : List (ℕ × OpCall)}
    (h : s.run calls = some s') : ReflTransGen OpStep s s' := by
  induction calls generalizing s with
  | nil =>
    cases h
    exact .refl
  | cons a calls ih =>
    obtain ⟨s1, hstep, hrest⟩ := Option.bind_eq_some_iff.mp h
    exact .head (.call a.1 a.2 hstep) (ih hrest)

def OpState.cached : OpState where
  m := after (do let i ← bread 0 ROOTDEV 50; brelse 0 i)
    (after (initlog 0 ROOTDEV 2) (boot fun _ => zeroBlock))
  op := fun _ => .outside
  commits := []
  ended := []

/-- Two operations log one block, and the second to end commits it. -/
theorem group_commit_shared : ∃ s, ReflTransGen OpStep OpState.cached s ∧
    s.commits = [[50]] ∧ s.ended = [(0, [50]), (0, [50])] ∧ s.Holds 0 [50] := by
  have hstart : OpState.cached.Start :=
    ⟨by decide +kernel, by decide +kernel, fun _ => rfl, rfl⟩
  have hrun : (OpState.cached.run ([(0, .beginOp), (1, .beginOp), (0, .logWrite 1),
      (1, .logWrite 1), (0, .endOp), (1, .endOp)] ++ List.replicate 8 (1, .commit) ++
      [(1, .finish)])).map (fun s => (s.commits, s.ended)) =
        some ([[50]], [(0, [50]), (0, [50])]) := by
    decide +kernel
  obtain ⟨s, hs, hends⟩ := Option.map_eq_some_iff.mp hrun
  obtain ⟨hcommits, hended⟩ := Prod.mk.inj hends
  have hreach := OpState.run_steps hs
  refine ⟨s, hreach, hcommits, hended, ?_⟩
  obtain ⟨-, -, -, -, -, -, hholds⟩ := group_commit hstart hreach
  exact hholds 0 [50] (by rw [hended]; exact List.mem_cons_self)

end Xv6
