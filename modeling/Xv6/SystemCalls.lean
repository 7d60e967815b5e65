import Xv6.SleepMonitor

/-! What system calls return, in any interleaving and with any calls. The results are those that
`syscall` gives back to the user; they are compared with what has been so at some moment of the
call, and with what stands in the memory of the caller when it is back. -/
namespace Xv6.Threads
open Code Function

/-! Calls in the trace. -/

/-- Process `p` leaves user space. -/
def Event.opens (p : Fin NPROC) : Event → Bool
  | .called q _ => q = p
  | _ => false

/-- What process `p` gets done in a call. -/
def Event.doneBy (p : Fin NPROC) : Event → Bool
  | .forked q _ | .reaped q .. | .badAddress q => q = p
  | _ => false

/-- The call that the process is in, or was in last. -/
def callOf (p : Fin NPROC) : List Event → Option Call
  | [] => none
  | .called q c :: es => if q = p then some c else callOf p es
  | _ :: es => callOf p es

/-- What the process has got done in that call, latest first. -/
def doneIn (p : Fin NPROC) : List Event → List Event
  | [] => []
  | e :: es => if e.opens p then [] else if e.doneBy p then e :: doneIn p es else doneIn p es

/-- With the trace as it is now, `v` belongs to the present call of the process. -/
def InCall (p : Fin NPROC) (c : Call) (trace : List Event) (v : Tasks) : Prop :=
  callOf p v.trace = some c ∧ ∃ since, trace = since ++ v.trace ∧ ∀ e ∈ since, e.opens p = false

variable {p t u : Fin NPROC} {c : Call} {e : Event} {trace : List Event} {d d' v : Tasks}
  {past past' : Set Tasks}

theorem callOf_cons (he : e.opens p = false) : callOf p (e :: trace) = callOf p trace := by
  cases e with
  | called q c => exact if_neg (of_decide_eq_false he)
  | _ => rfl

theorem doneIn_cons (ho : e.opens p = false) (hd : e.doneBy p = false) :
    doneIn p (e :: trace) = doneIn p trace := by
  rw [doneIn, ho, hd]
  rfl

theorem doneIn_done (ho : e.opens p = false) (hd : e.doneBy p = true) :
    doneIn p (e :: trace) = e :: doneIn p trace := by
  rw [doneIn, ho, hd]
  rfl

theorem doneIn_badAddress :
    doneIn p (.badAddress p :: trace) = .badAddress p :: doneIn p trace :=
  doneIn_done rfl (decide_eq_true rfl)

theorem called_of_callOf (h : callOf p trace = some c) : .called p c ∈ trace := by
  induction trace with
  | nil => cases h
  | cons e trace ih =>
    by_cases he : e.opens p = true
    · cases e with
      | called q c' =>
        obtain rfl := of_decide_eq_true he
        have hc : some c' = some c := (if_pos rfl).symm.trans h
        rw [Option.some.inj hc]
        exact List.mem_cons_self
      | _ => cases he
    · rw [callOf_cons (Bool.eq_false_iff.mpr he)] at h
      exact List.mem_cons_of_mem _ (ih h)

theorem mem_of_doneIn (h : e ∈ doneIn p trace) : e ∈ trace := by
  induction trace with
  | nil => cases h
  | cons e' trace ih =>
    rw [doneIn] at h
    split_ifs at h with ho hd
    · cases h
    · rcases List.mem_cons.mp h with rfl | h
      · exact List.mem_cons_self
      · exact List.mem_cons_of_mem _ (ih h)
    · exact List.mem_cons_of_mem _ (ih h)

theorem InCall.cons (h : InCall p c trace v) (he : e.opens p = false) :
    InCall p c (e :: trace) v := by
  obtain ⟨hc, since, rfl, hs⟩ := h
  exact ⟨hc, e :: since, rfl, List.forall_mem_cons.mpr ⟨he, hs⟩⟩

/-- Some moment of the present call is as `P` says. -/
def Seen (past : Set Tasks) (p : Fin NPROC) (c : Call) (trace : List Event) (P : Tasks → Prop) :
    Prop :=
  ∃ v ∈ past, InCall p c trace v ∧ P v

variable {P : Tasks → Prop}

theorem Seen.cons (h : Seen past p c trace P) (he : e.opens p = false) :
    Seen past p c (e :: trace) P := by
  obtain ⟨v, hv, hin, hP⟩ := h
  exact ⟨v, hv, hin.cons he, hP⟩

theorem Seen.mono (h : Seen past p c trace P) (hp : past ⊆ past') : Seen past' p c trace P := by
  obtain ⟨v, hv, hin, hP⟩ := h
  exact ⟨v, hp hv, hin, hP⟩

/-- The present moment counts. -/
theorem Seen.now (hd : d ∈ past) (hc : callOf p d.trace = some c) (hP : P d) :
    Seen past p c d.trace P :=
  ⟨d, hd, ⟨hc, [], rfl, by simp⟩, hP⟩

/-! What is right about the events of a trace. -/

def HasPid (pid : Int32) (d : Tasks) : Prop := ∃ q, (d.proc q).pid = pid

/-- No byte is there, and none will come. -/
def AtEnd (d : Tasks) : Prop := d.pipe.empty = true ∧ d.pipe.writeopen = false

/-- What a call may return: the result, and the buffer of the caller. -/
def Answer (past : Set Tasks) (earlier : List Event) (p : Fin NPROC) (r : ℤ)
    (bytes : List UInt8) : Call → Prop
  | .kill pid => r = 0 ∧ Seen past p (.kill pid) earlier (HasPid pid) ∨ r = -1
  | .fork => (∃ pid, doneIn p earlier = [.forked p pid] ∧ r = pid.toInt ∧
      Seen past p .fork earlier (HasPid pid)) ∨ doneIn p earlier = [] ∧ r = -1
  | .wait addr => (∃ child parent pid status,
      doneIn p earlier = [.reaped p child parent pid status] ∧ r = pid.toInt ∧
      (addr ≠ 0 → bytes = intBytes status)) ∨
      (doneIn p earlier = [] ∨ doneIn p earlier = [.badAddress p]) ∧ r = -1
  | .piperead addr n => r = 0 → 0 < n.toInt → .badAddress p ∉ doneIn p earlier →
      Seen past p (.piperead addr n) earlier AtEnd
  | _ => True

/-- What is right about an event, given those before it, if `calls` says which calls are made. -/
def Justified (calls : Call → Bool) (past : Set Tasks) (earlier : List Event) : Event → Prop
  | .called _ c => calls c = true
  | .returned p c r bytes => callOf p earlier = some c ∧ Answer past earlier p r bytes c
  | .exit p _ status => callOf p earlier = some (.exit status)
  | .reaped p .. => ∃ addr, callOf p earlier = some (.wait addr)
  | .forked p _ => callOf p earlier = some .fork
  | _ => True

variable {calls : Call → Bool}

theorem Justified.mono (h : Justified calls past trace e) (hp : past ⊆ past') :
    Justified calls past' trace e := by
  cases e with
  | returned p c r bytes =>
    refine ⟨h.1, ?_⟩
    have ha := h.2
    cases c with
    | kill pid => exact ha.imp_left fun ⟨hr, hs⟩ => ⟨hr, hs.mono hp⟩
    | fork => exact ha.imp_left fun ⟨pid, hd, hr, hs⟩ => ⟨pid, hd, hr, hs.mono hp⟩
    | wait addr => exact ha
    | piperead addr n => exact fun hr hn hbad => (ha hr hn hbad).mono hp
    | _ => trivial
  | _ => exact h

/-! What a process knows while it is in a call. -/

inductive Note where
  | plain
  /-- A slot has had the pid. -/
  | named (pid : Int32)
  /-- The bytes are in its memory. -/
  | filled (addr : UInt64) (bytes : List UInt8)
  /-- In `piperead`, with `pi->lock`: there is a byte, or none will come. -/
  | awaited
  /-- In `piperead`: there was no byte, and none to come. -/
  | drained

inductive CallMode where
  | user
  /-- In the call, having got done this much. -/
  | busy (c : Call) (done : List Event) (note : Note)

def Note.holds (past : Set Tasks) (d : Tasks) (t : Fin NPROC) (H : Set LockId) (c : Call) :
    Note → Prop
  | .plain => True
  | .named pid => Seen past t c d.trace (HasPid pid)
  | .filled addr bytes => d.load t addr bytes.length = bytes
  | .awaited => .pipe ∈ H ∧ (d.pipe.empty && d.pipe.writeopen) = false
  | .drained => Seen past t c d.trace AtEnd

def CallMode.knows (past : Set Tasks) (d : Tasks) (t : Fin NPROC) (H : Set LockId) :
    CallMode → Prop
  | .user => True
  | .busy c done note => callOf t d.trace = some c ∧ doneIn t d.trace = done ∧
      note.holds past d t H c

structure CallsInv (calls : Call → Bool) (past : Set Tasks) (d : Tasks)
    (g : Fin NPROC → Set LockId × CallMode) : Prop where
  here : d ∈ past
  knows : ∀ t, (g t).2.knows past d t (g t).1
  justified : ∀ later e earlier, d.trace = later ++ e :: earlier → Justified calls past earlier e

def callOutline (calls : Call → Bool) : Outline (Fin NPROC) LockId Tasks CallMode where
  ok := Pool.anyStep
  inv := CallsInv calls

variable {H H' : Set LockId} {x : CallMode} {g : Fin NPROC → Set LockId × CallMode} {α β : Type}

/-- Steps that others make leave what a process knows as it is. -/
theorem CallMode.knows_other (hk : x.knows past d u H) (hp : past ⊆ past')
    (htrace : d'.trace = d.trace ∨
      ∃ e, e.opens u = false ∧ e.doneBy u = false ∧ d'.trace = e :: d.trace)
    (hmem : d'.mem u = d.mem u) (hpipe : d'.pipe = d.pipe ∨ .pipe ∉ H) :
    x.knows past' d' u H := by
  cases x with
  | user => trivial
  | busy c done note =>
    obtain ⟨hc, hd, hn⟩ := hk
    have hsame : callOf u d'.trace = some c ∧ doneIn u d'.trace = done := by
      rcases htrace with ht | ⟨e, ho, he, ht⟩
      · rw [ht]
        exact ⟨hc, hd⟩
      · rw [ht, callOf_cons ho, doneIn_cons ho he]
        exact ⟨hc, hd⟩
    have hseen {P : Tasks → Prop} (h : Seen past u c d.trace P) : Seen past' u c d'.trace P := by
      rcases htrace with ht | ⟨e, ho, -, ht⟩ <;> rw [ht]
      · exact h.mono hp
      · exact (h.mono hp).cons ho
    refine ⟨hsame.1, hsame.2, ?_⟩
    cases note with
    | plain => trivial
    | named pid => exact hseen hn
    | filled addr bytes =>
      change d'.load u addr bytes.length = bytes
      rw [Tasks.load, hmem]
      exact hn
    | awaited =>
      refine ⟨hn.1, ?_⟩
      rw [hpipe.resolve_right fun h => h hn.1]
      exact hn.2
    | drained => exact hseen hn

/-- A step of process `t`, which records at most one event of its own. -/
structure OwnStep (calls : Call → Bool) (t : Fin NPROC) (past : Set Tasks) (d d' : Tasks) (H : Set LockId) : Prop where
  trace : d'.trace = d.trace ∨ ∃ e, d'.trace = e :: d.trace ∧ Justified calls past d.trace e ∧
    ∀ u, u ≠ t → e.opens u = false ∧ e.doneBy u = false
  mem : ∀ u, u ≠ t → d'.mem u = d.mem u
  pipe : d'.pipe = d.pipe ∨ .pipe ∈ H

theorem CallsInv.step {lock : LockId → Option (Fin NPROC)} (h : CallsInv calls past d g)
    (hl : Held lock g) (hs : OwnStep calls t (insert d' past) d d' (g t).1)
    (hk : x.knows (insert d' past) d' t H) :
    CallsInv calls (insert d' past) d' (update g t (H, x)) := by
  refine ⟨Set.mem_insert .., fun u => ?_, fun later e earlier hsplit => ?_⟩
  · by_cases hu : u = t
    · subst hu
      rwa [update_self]
    rw [update_of_ne hu]
    refine CallMode.knows_other (h.knows u) (Set.subset_insert ..) ?_ (hs.mem u hu) ?_
    · rcases hs.trace with ht | ⟨e, ht, -, he⟩
      · exact .inl ht
      · exact .inr ⟨e, (he u hu).1, (he u hu).2, ht⟩
    · exact hs.pipe.imp_right fun hp hpu => hu (hl.unique hpu hp)
  · rcases hs.trace with ht | ⟨e', ht, hj, -⟩
    · exact (h.justified later e earlier (ht ▸ hsplit)).mono (Set.subset_insert ..)
    · rw [ht] at hsplit
      cases later with
      | nil =>
        obtain ⟨rfl, rfl⟩ := List.cons.inj hsplit
        exact hj
      | cons e'' later =>
        exact (h.justified later e earlier (List.cons.inj hsplit).2).mono (Set.subset_insert ..)

/-! Code that gets nothing done. -/

def Event.silent : Event → Bool
  | .called .. | .returned .. | .badAddress _ | .forked .. | .exit .. | .reaped .. => false
  | _ => true

structure Silent (d d' : Tasks) : Prop where
  mem : d'.mem = d.mem
  pipe : d'.pipe = d.pipe
  trace : d'.trace = d.trace ∨ ∃ e, e.silent = true ∧ d'.trace = e :: d.trace

theorem Silent.refl (d : Tasks) : Silent d d := ⟨rfl, rfl, .inl rfl⟩

theorem Silent.record (d : Tasks) (he : e.silent = true) : Silent d (d.record e) :=
  ⟨rfl, rfl, .inr ⟨e, he, rfl⟩⟩

theorem Silent.setProc (d : Tasks) (q : Fin NPROC) (f : Task → Task) : Silent d (d.setProc q f) :=
  ⟨rfl, rfl, .inl rfl⟩

theorem Event.silent_opens (he : e.silent = true) (u : Fin NPROC) : e.opens u = false := by
  cases e <;> first | rfl | cases he

theorem Event.silent_doneBy (he : e.silent = true) (u : Fin NPROC) : e.doneBy u = false := by
  cases e <;> first | rfl | cases he

theorem Event.silent_justified (he : e.silent = true) : Justified calls past trace e := by
  cases e <;> trivial

theorem Silent.ownStep (h : Silent d d') (t : Fin NPROC) (H : Set LockId) :
    OwnStep calls t past d d' H := by
  refine ⟨h.trace.imp_right fun ⟨e, he, ht⟩ => ⟨e, ht, Event.silent_justified he, fun u _ =>
    ⟨Event.silent_opens he u, Event.silent_doneBy he u⟩⟩, fun u _ => by rw [h.mem], .inl h.pipe⟩

theorem Silent.knows (h : Silent d d') (hk : x.knows past d t H) :
    x.knows (insert d' past) d' t H :=
  CallMode.knows_other hk (Set.subset_insert ..) (h.trace.imp_right fun ⟨e, he, ht⟩ =>
    ⟨e, Event.silent_opens he t, Event.silent_doneBy he t, ht⟩) (by rw [h.mem]) (.inl h.pipe)

/-- The mode does not rest on `pi->lock`. -/
def CallMode.loose : CallMode → Prop
  | .busy _ _ .awaited => False
  | _ => True

theorem CallMode.knows_relock (hk : x.knows past d t H)
    (hH : x.loose ∨ (LockId.pipe ∈ H' ↔ LockId.pipe ∈ H)) : x.knows past d t H' := by
  cases x with
  | user => trivial
  | busy c done note =>
    refine ⟨hk.1, hk.2.1, ?_⟩
    cases note with
    | awaited => exact ⟨(hH.resolve_left id).mpr hk.2.2.1, hk.2.2.2⟩
    | _ => exact hk.2.2

theorem CallsInv.relock (h : CallsInv calls past d g) (hx : (g t).2 = x)
    (hH : x.loose ∨ (LockId.pipe ∈ H ↔ LockId.pipe ∈ (g t).1)) :
    CallsInv calls past d (update g t (H, x)) := by
  refine ⟨h.here, fun u => ?_, h.justified⟩
  by_cases hu : u = t
  · subst hu
    rw [update_self]
    exact CallMode.knows_relock (hx ▸ h.knows u) hH
  · rw [update_of_ne hu]
    exact h.knows u

theorem callOutline_indifferent (calls : Call → Bool) (t : Fin NPROC) {L : Set LockId}
    (hL : x.loose ∨ LockId.pipe ∉ L) :
    (callOutline calls).Indifferent t L Silent x where
  relock {past d g H} hi hx hH := hi.relock hx (hL.imp_right fun hp => hH .pipe hp)
  change {past d d' g} hi hx hs := by
    refine ⟨Set.mem_insert .., fun u => hs.knows (hi.knows u), fun later e earlier hsplit => ?_⟩
    rcases hs.trace with ht | ⟨e', he', ht⟩
    · exact (hi.justified later e earlier (ht ▸ hsplit)).mono (Set.subset_insert ..)
    · rw [ht] at hsplit
      cases later with
      | nil =>
        obtain ⟨rfl, rfl⟩ := List.cons.inj hsplit
        exact Event.silent_justified he'
      | cons e'' later =>
        exact (hi.justified later e earlier (List.cons.inj hsplit).2).mono (Set.subset_insert ..)

/-! The functions that get nothing done. They may use `pi->lock` only if it is in `L`. -/

section
variable {L : Set LockId} {R : Tasks → Tasks → Prop}

theorem forEach_uses {body : Fin NPROC → KCode Unit} (h : ∀ q, (body q).Uses L R) :
    (forEach body).Uses L R := by
  refine .loop (fun i => ?_) 0
  by_cases hi : i < NPROC
  · rw [dif_pos hi]
    exact .bind (h _) fun _ => trivial
  · rw [dif_neg hi]
    trivial

theorem forProcs_uses {body : Fin NPROC → KCode (Option β)} (h : ∀ q, (body q).Uses L R) :
    (forProcs body).Uses L R := by
  refine .loop (fun i => ?_) 0
  by_cases hi : i < NPROC
  · rw [dif_pos hi]
    refine .bind (h _) fun r => ?_
    cases r <;> trivial
  · rw [dif_neg hi]
    trivial

theorem succeeds_uses : succeeds.Uses L Silent := by
  refine .access fun i d b d' h => ?_
  cases i with
  | succeeds ok =>
    cases h
    exact .refl d
  | _ => cases h

theorem onProc_uses (q : Fin NPROC) (f : Task → Task) : (onProc q f).Uses L Silent :=
  .write fun d => .setProc d q f

/-- A test that leaves a note in the trace. -/
theorem noted_uses {f : Tasks → β} (he : e.silent = true) :
    (access fun _ d => some (f d, d.record e) : KCode β).Uses L Silent := by
  refine .access fun i d b d' h => ?_
  cases h
  exact .record d he

variable (hL : ∀ l, l ≠ LockId.pipe → l ∈ L)
include hL

theorem scheduler_uses (q : Fin NPROC) : (scheduler q).Uses L Silent := by
  refine .loop (fun _ => .bind (.lock (hL _ (by simp))) fun _ => .bind (.access ?_) fun found => ?_) ()
  · intro i d b d' h
    split_ifs at h
    · cases h
      exact .setProc d q _
    · cases h
      exact .refl d
  · cases found with
    | true => trivial
    | false => exact .bind (.unlock (hL _ (by simp))) fun _ => trivial

theorem sched_uses (q : Fin NPROC) : (sched q).Uses L Silent := by
  refine .bind (.access fun i d b d' h => ?_) fun _ =>
    .bind (.unlock (hL _ (by simp))) fun _ => scheduler_uses hL q
  obtain ⟨-, h⟩ := Option.ite_none_left_eq_some.mp h
  cases h
  exact .refl d

theorem yield_uses (q : Fin NPROC) : (yield q).Uses L Silent :=
  .bind (.lock (hL _ (by simp))) fun _ => .bind (onProc_uses q _) fun _ =>
    .bind (sched_uses hL q) fun _ => .unlock (hL _ (by simp))

theorem wakeup_uses (q : Fin NPROC) (chan : Chan) : (wakeup q chan).Uses L Silent := by
  refine .bind (forEach_uses fun r => ?_) fun _ => .write fun d => .record d rfl
  split_ifs with hr
  · refine .bind (.lock (hL _ (by simp))) fun _ => .bind (.write fun d => ?_) fun _ =>
      .unlock (hL _ (by simp))
    split_ifs
    · exact .setProc d r _
    · exact .refl d
  · trivial

theorem clockintr_uses (q : Fin NPROC) : (clockintr q).Uses L Silent :=
  .bind (.lock (hL _ (by simp))) fun _ => .bind (.write fun _ => ⟨rfl, rfl, .inl rfl⟩) fun _ =>
    .bind (wakeup_uses hL q _) fun _ => .unlock (hL _ (by simp))

theorem preempt_uses (q : Fin NPROC) : (preempt q).Uses L Silent := by
  refine .loop (fun _ => .bind (.access fun i d b d' h => ?_) fun comes => ?_) ()
  · cases i with
    | timer comes =>
      cases h
      exact .refl d
    | _ => cases h
  · cases comes with
    | true => exact .bind (clockintr_uses hL q) fun _ => .bind (yield_uses hL q) fun _ => trivial
    | false => trivial

theorem sleep_uses (q : Fin NPROC) (chan : Chan) {lk : LockId} (hlk : lk ∈ L) :
    (sleep q chan lk).Uses L Silent :=
  .bind (.lock (hL _ (by simp))) fun _ => .bind (.unlock hlk) fun _ =>
    .bind (onProc_uses q _) fun _ => .bind (sched_uses hL q) fun _ =>
    .bind (onProc_uses q _) fun _ => .bind (.unlock (hL _ (by simp))) fun _ =>
    .bind (preempt_uses hL q) fun _ => .lock hlk

theorem killed_uses (q : Fin NPROC) : (killed q).Uses L Silent := by
  refine .bind (.lock (hL _ (by simp))) fun _ => .bind (.access fun i d b d' h => ?_) fun k =>
    .bind (.unlock (hL _ (by simp))) fun _ => trivial
  split_ifs at h
  · cases h
    exact .refl d
  · cases h
    exact .record d rfl

theorem setkilled_uses (q : Fin NPROC) : (setkilled q).Uses L Silent :=
  .bind (.lock (hL _ (by simp))) fun _ =>
    .bind (.write fun d => ⟨rfl, rfl, .inr ⟨.setkilled q, rfl, rfl⟩⟩) fun _ =>
    .unlock (hL _ (by simp))

theorem allocproc_uses (q : Fin NPROC) : (allocproc q).Uses L Silent := by
  refine .bind (forProcs_uses fun r => .bind (preempt_uses hL q) fun _ =>
    .bind (.lock (hL _ (by simp))) fun _ => .bind (.read .refl _) fun state => ?_) fun r => ?_
  · split_ifs
    · trivial
    · exact .bind (.unlock (hL _ (by simp))) fun _ => trivial
  · cases r with
    | none => trivial
    | some r =>
      refine .bind (.write fun d => ⟨rfl, rfl, .inr ⟨.alloc r d.nextpid, rfl, rfl⟩⟩) fun _ =>
        .bind succeeds_uses fun ok => ?_
      cases ok with
      | true => trivial
      | false =>
        exact .bind (.write fun d => .setProc d r _) fun _ =>
          .bind (.unlock (hL _ (by simp))) fun _ => trivial

theorem reparent_uses (q : Fin NPROC) : (reparent q).Uses L Silent := by
  refine forEach_uses fun pp => .bind (.access fun i d b d' h => ?_) fun child => ?_
  · split_ifs at h
    · cases h
      exact .setProc d pp _
    · cases h
      exact .refl d
  · cases child with
    | none => trivial
    | some initproc => exact wakeup_uses hL q _

end

end Xv6.Threads
