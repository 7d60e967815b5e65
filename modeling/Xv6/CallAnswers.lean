import Xv6.SystemCalls

/-! Every system call returns what it should: the rules for the steps that get something done, the
functions of kernel/proc.c and kernel/pipe.c, and the loop of a process. -/
namespace Xv6.Threads
open Code Function

variable {p t : Fin NPROC} {c : Call} {d d' : Tasks} {past : Set Tasks} {calls : Call → Bool}
  {H : Set LockId} {x : CallMode} {α β : Type}

/-! Rules for the outline of the calls. -/

section
variable {k : α → KCode β} {Q : β → Set LockId × CallMode → Prop} {f : KCode α}

/-- Code that gets nothing done and does not use `pi->lock`, and then `k`. -/
theorem silent_then (hf : f.Uses {l | l ≠ .pipe} Silent)
    (hk : ∀ r H', (LockId.pipe ∈ H' ↔ LockId.pipe ∈ H) → (callOutline calls).Safe t (H', x) (k r) Q) :
    (callOutline calls).Safe t (H, x) (f >>= k) Q := by
  have hx := (callOutline_indifferent calls t (x := x) (.inr (by simp))).safe (H := H) hf
  refine .bind (hx.mono fun r a ha => ?_)
  obtain ⟨H', x'⟩ := a
  obtain ⟨rfl, hH⟩ := ha
  exact hk r H' (hH .pipe (by simp))

/-- Code that gets nothing done, and then `k`. -/
theorem loose_then (hx : x.loose) (hf : f.Uses Set.univ Silent)
    (hk : ∀ r H', (callOutline calls).Safe t (H', x) (k r) Q) :
    (callOutline calls).Safe t (H, x) (f >>= k) Q := by
  have hsafe := (callOutline_indifferent calls t (.inl hx)).safe (H := H) hf
  refine .bind (hsafe.mono fun r a ha => ?_)
  obtain ⟨H', x'⟩ := a
  obtain ⟨rfl, -⟩ := ha
  exact hk r H'

end

variable {Q : β → Set LockId × CallMode → Prop}

theorem calls_access {f : Choice → Tasks → Option (β × Tasks)}
    (h : ∀ past i d b d', d ∈ past → x.knows past d t H → f i d = some (b, d') →
      ∃ x', OwnStep calls t (insert d' past) d d' H ∧ x'.knows (insert d' past) d' t H ∧ Q b (H, x')) :
    (callOutline calls).Safe t (H, x) (access f : KCode β) Q := by
  refine Outline.Safe.access fun {past} i d lock g b d' hi hl hg hf _ => ?_
  have hk := hi.knows t
  rw [hg] at hk
  obtain ⟨x', hs, hk', hQ⟩ := h past i d b d' hi.here hk hf
  refine ⟨x', hi.step hl ?_ hk', hQ⟩
  rwa [hg]

theorem calls_lock {Q : Unit → Set LockId × CallMode → Prop} {l : LockId} (hx : x.loose)
    (hQ : Q () (insert l H, x)) : (callOutline calls).Safe t (H, x) (lock l : KCode Unit) Q := by
  refine Outline.Safe.lock fun d lock g hi _ hg _ => ⟨x, CallsInv.relock hi (by rw [hg]) (.inl hx), hQ⟩

theorem calls_unlock {Q : Unit → Set LockId × CallMode → Prop} {l : LockId} (x' : CallMode)
    (hx : ∀ past d, x.knows past d t H → x'.knows past d t (H \ {l}))
    (hQ : Q () (H \ {l}, x')) : (callOutline calls).Safe t (H, x) (unlock l : KCode Unit) Q := by
  refine Outline.Safe.unlock fun {past} d lock g hi _ hg _ => ⟨x', ⟨hi.here, fun u => ?_, hi.justified⟩, hQ⟩
  by_cases hu : u = t
  · subst hu
    have hk := hi.knows u
    rw [hg] at hk
    rw [update_self]
    exact hx past d hk
  · rw [update_of_ne hu]
    exact hi.knows u

/-- The locks other than `pi->lock`. -/
theorem others (l : LockId) (hl : l ≠ .pipe) : l ∈ {l | l ≠ LockId.pipe} := hl

theorem every (l : LockId) (_ : l ≠ .pipe) : l ∈ (Set.univ : Set LockId) := trivial

/-! `kkill` and `kfork`. -/

theorem Tasks.kill_silent (d : Tasks) (q : Fin NPROC) (pid : Int32) : Silent d (d.kill q pid).2 := by
  rw [Tasks.kill]
  split
  · exact ⟨rfl, rfl, .inr ⟨.kkill pid, rfl, rfl⟩⟩
  · exact .record d rfl

theorem kkill_calls (pid : Int32) : (callOutline calls).Safe t (H, .busy (.kill pid) [] .plain)
    (kkill t pid) fun r a => ∃ H', r = 0 ∧ a = (H', .busy (.kill pid) [] (.named pid)) ∨
      r = -1 ∧ a = (H', .busy (.kill pid) [] .plain) := by
  refine .bind ((forProcs_safe (fun _ a => ∃ H', a = (H', CallMode.busy (.kill pid) [] .plain))
    (Q := fun r a => ∃ H', r.elim (a = (H', CallMode.busy (.kill pid) [] .plain)) fun b =>
      b = 0 ∧ a = (H', CallMode.busy (.kill pid) [] (.named pid))) (fun q a ha => ?_) ⟨H, rfl⟩
    fun a ha => ha).mono fun r a ha => ?_)
  · obtain ⟨H', rfl⟩ := ha
    refine silent_then (preempt_uses others t) fun _ H' _ => ?_
    refine silent_then (.lock (others _ (by simp))) fun _ H' _ => ?_
    refine .bind (calls_access fun past i d b d' hd hk hf => ?_)
    have hs := d.kill_silent q pid
    obtain rfl : (d.kill q pid).1 = b := congrArg Prod.fst (Option.some.inj hf)
    obtain rfl : (d.kill q pid).2 = d' := congrArg Prod.snd (Option.some.inj hf)
    by_cases hpid : (d.proc q).pid = pid
    · have hfound : (d.kill q pid).1 = true := by rw [Tasks.kill, if_pos hpid]
      refine ⟨.busy (.kill pid) [] (.named pid), hs.ownStep t _, ?_, ?_⟩
      · -- The slot has the pid at this moment of the call.
        have hnamed : (CallMode.busy (.kill pid) [] (.named pid)).knows past d t H' :=
          ⟨hk.1, hk.2.1, .now hd hk.1 ⟨q, hpid⟩⟩
        exact hs.knows hnamed
      · refine silent_then (.unlock (others _ (by simp))) fun _ H' _ => ?_
        rw [hfound]
        exact .ret ⟨H', rfl, rfl⟩
    · have hfound : (d.kill q pid).1 = false := by rw [Tasks.kill, if_neg hpid]
      refine ⟨.busy (.kill pid) [] .plain, hs.ownStep t _, hs.knows hk, ?_⟩
      refine silent_then (.unlock (others _ (by simp))) fun _ H' _ => ?_
      rw [hfound]
      exact .ret ⟨H', rfl⟩
  · obtain ⟨H', ha⟩ := ha
    cases r with
    | none => exact .ret ⟨H', .inr ⟨rfl, ha⟩⟩
    | some b => exact .ret ⟨H', .inl ha⟩

theorem kfork_calls : (callOutline calls).Safe t (H, .busy .fork [] .plain) (kfork t) fun r a =>
    ∃ H', a = (H', .busy .fork [.forked t r] (.named r)) ∨
      r = -1 ∧ a = (H', .busy .fork [] .plain) := by
  refine silent_then (allocproc_uses others t) fun np H' _ => ?_
  cases np with
  | none => exact .ret ⟨H', .inr ⟨rfl, rfl⟩⟩
  | some np =>
    refine silent_then succeeds_uses fun ok H' _ => ?_
    cases ok with
    | false =>
      refine silent_then (.write fun d => .setProc d np _) fun _ H' _ => ?_
      exact silent_then (.unlock (others _ (by simp))) fun _ H' _ => .ret ⟨H', .inr ⟨rfl, rfl⟩⟩
    | true =>
      refine .bind (calls_access fun past i d b d' hd hk hf => ?_)
      cases hf
      refine ⟨.busy .fork [.forked t (d.proc np).pid] (.named (d.proc np).pid), ?_, ?_, ?_⟩
      · refine ⟨.inr ⟨.forked t (d.proc np).pid, rfl, hk.1, fun u hu => ⟨rfl, ?_⟩⟩,
          fun _ _ => rfl, .inl rfl⟩
        exact decide_eq_false hu.symm
      · have hopens : (Event.forked t (d.proc np).pid).opens t = false := rfl
        have hseen : Seen past t .fork d.trace (HasPid (d.proc np).pid) := .now hd hk.1 ⟨np, rfl⟩
        refine ⟨(callOf_cons hopens).trans hk.1, ?_, (hseen.mono (Set.subset_insert ..)).cons hopens⟩
        exact (doneIn_done hopens (decide_eq_true rfl)).trans (congrArg _ hk.2.1)
      · refine silent_then (.unlock (others _ (by simp))) fun _ H' _ => ?_
        refine silent_then (preempt_uses others t) fun _ H' _ => ?_
        refine silent_then (.lock (others _ (by simp))) fun _ H' _ => ?_
        refine silent_then (onProc_uses np _) fun _ H' _ => ?_
        refine silent_then (.unlock (others _ (by simp))) fun _ H' _ => ?_
        refine silent_then (preempt_uses others t) fun _ H' _ => ?_
        refine silent_then (.lock (others _ (by simp))) fun _ H' _ => ?_
        refine silent_then (onProc_uses np _) fun _ H' _ => ?_
        exact silent_then (.unlock (others _ (by simp))) fun _ H' _ => .ret ⟨H', .inl rfl⟩

/-! `kexit` and `kwait`. -/

theorem kexit_calls (status : Int32) :
    (callOutline calls).Safe t (H, .busy (.exit status) [] .plain) (kexit t status) fun _ _ => True := by
  refine silent_then (.access fun i d b d' h => ?_) fun _ H' _ => ?_
  · obtain ⟨-, h⟩ := Option.ite_none_left_eq_some.mp h
    cases h
    exact .refl d
  refine silent_then (.lock (others _ (by simp))) fun _ H' _ => ?_
  refine silent_then (reparent_uses others t) fun _ H' _ => ?_
  refine silent_then (.read .refl _) fun parent H' _ => ?_
  refine silent_then (wakeup_uses others t _) fun _ H' _ => ?_
  refine silent_then (.lock (others _ (by simp))) fun _ H' _ => ?_
  refine .bind (calls_access fun past i d b d' hd hk hf => ?_)
  cases hf
  refine ⟨.user, ⟨.inr ⟨.exit t (d.proc t).pid status, rfl, hk.1, fun u _ => ⟨rfl, rfl⟩⟩,
    fun _ _ => rfl, .inl rfl⟩, trivial, ?_⟩
  refine silent_then (.unlock (others _ (by simp))) fun _ H' _ => ?_
  exact calls_unlock .user (fun _ _ _ => trivial) trivial

/-- What has been stored can be loaded. -/
theorem Tasks.load_store (d : Tasks) (p : Fin NPROC) (addr : UInt64) (bytes : List UInt8)
    (h : bytes.length < 2^64) : (d.store p addr bytes).load p addr bytes.length = bytes := by
  refine List.ext_getElem (by simp [load]) fun k _ hk => ?_
  have hplace : (addr+.ofNat k-addr).toNat = k := by
    rw [UInt64.toNat_sub, UInt64.toNat_add, UInt64.toNat_ofNat']
    have := addr.toNat_lt
    omega
  simp only [load, List.getElem_map, List.getElem_range, store, update_self, hplace]
  rw [List.getD_eq_getElem?_getD, List.getElem?_eq_getElem hk, Option.getD_some]

theorem store_ownStep (d : Tasks) (t : Fin NPROC) (addr : UInt64) (bytes : List UInt8) :
    OwnStep calls t past d (d.store t addr bytes) H :=
  ⟨.inl rfl, fun _ hu => update_of_ne hu .., .inl rfl⟩

theorem badAddress_ownStep (d : Tasks) (t : Fin NPROC) (addr : UInt64) (bytes : List UInt8) :
    OwnStep calls t past d ((d.store t addr bytes).record (.badAddress t)) H :=
  ⟨.inr ⟨.badAddress t, rfl, trivial, fun _ hu => ⟨rfl, decide_eq_false hu.symm⟩⟩,
    fun _ hu => update_of_ne hu .., .inl rfl⟩

theorem copyout_calls {addr : UInt64} {bytes : List UInt8} {done : List Event}
    {Q : Bool → Set LockId × CallMode → Prop} (hlen : bytes.length < 2^64)
    (hgood : Q true (H, .busy c done (.filled addr bytes)))
    (hbad : Q false (H, .busy c (.badAddress t :: done) .plain)) :
    (callOutline calls).Safe t (H, .busy c done .plain) (copyout t addr bytes) Q := by
  refine calls_access fun past i d ok d' hd hk hf => ?_
  rcases copyout_cases rfl hf with ⟨rfl, rfl⟩ | ⟨rfl, k, rfl⟩
  · exact ⟨.busy c done (.filled addr bytes), store_ownStep d t addr bytes,
      ⟨hk.1, hk.2.1, d.load_store t addr bytes hlen⟩, hgood⟩
  · refine ⟨.busy c (.badAddress t :: done) .plain, badAddress_ownStep d t addr _,
      ⟨(callOf_cons rfl).trans hk.1, ?_, trivial⟩, hbad⟩
    exact doneIn_badAddress.trans (congrArg _ hk.2.1)

/-- The end of a `kwait`: a child is reported, with its status in memory; or none is. -/
def WaitEnds (t : Fin NPROC) (addr : UInt64) (r : Int32) (a : Set LockId × CallMode) : Prop :=
  ∃ H done note, a = (H, .busy (.wait addr) done note) ∧
    ((∃ child parent status, done = [.reaped t child parent r status] ∧
      (addr ≠ 0 → note = .filled addr (intBytes status))) ∨
    r = -1 ∧ (done = [] ∨ done = [.badAddress t]))

theorem reap_calls {addr : UInt64} {note : Note} {pp : Fin NPROC} {pid status : Int32}
    (hn : addr ≠ 0 → note = .filled addr (intBytes status)) (hloose : note ≠ .awaited) :
    (callOutline calls).Safe t (H, .busy (.wait addr) [] note) (do
      write fun d => (d.record (.reaped t pp (d.proc pp).parent pid status)).freeproc pp
      unlock (.proc pp)
      pure (.inr (.reaped pid)) : KCode ((ℕ × Bool) ⊕ Scan)) fun r a =>
        r = .inr (.reaped pid) ∧ WaitEnds t addr pid a := by
  refine .bind (calls_access fun past i d b d' hd hk hf => ?_)
  cases hf
  have hopens : (Event.reaped t pp (d.proc pp).parent pid status).opens t = false := rfl
  refine ⟨.busy (.wait addr) [.reaped t pp (d.proc pp).parent pid status] note, ?_,
    ⟨(callOf_cons hopens).trans hk.1, ?_, ?_⟩, ?_⟩
  · exact ⟨.inr ⟨_, rfl, ⟨addr, hk.1⟩, fun u hu => ⟨rfl, decide_eq_false hu.symm⟩⟩, fun _ _ => rfl,
      .inl rfl⟩
  · exact (doneIn_done hopens (decide_eq_true rfl)).trans (congrArg _ hk.2.1)
  · have hold := hk.2.2
    cases note with
    | plain => trivial
    | awaited => exact absurd rfl hloose
    | filled => exact hold
    | named | drained => exact (Seen.mono hold (Set.subset_insert ..)).cons hopens
  · refine silent_then (.unlock (others _ (by simp))) fun _ H' _ => .ret ⟨rfl, H', _, note, rfl, .inl ?_⟩
    exact ⟨pp, (d.proc pp).parent, status, rfl, hn⟩

theorem kwaitScan_calls (addr : UInt64) :
    (callOutline calls).Safe t (H, .busy (.wait addr) [] .plain) (kwaitScan t addr) fun r a =>
      match r with
      | .reaped pid => WaitEnds t addr pid a
      | .copyFailed => WaitEnds t addr (-1) a
      | .kids _ => ∃ H', a = (H', .busy (.wait addr) [] .plain) := by
  refine Outline.Safe.loop (fun _ a => ∃ H', a = (H', CallMode.busy (.wait addr) [] .plain))
    (fun s a ha => ?_) ⟨H, rfl⟩
  obtain ⟨H', rfl⟩ := ha
  by_cases hlt : s.1 < NPROC
  · rw [dif_pos hlt]
    refine silent_then (.read .refl _) fun child H' _ => ?_
    cases child with
    | false => exact .ret ⟨H', rfl⟩
    | true =>
      refine silent_then (.lock (others _ (by simp))) fun _ H' _ => ?_
      refine silent_then (.read .refl _) fun state H' _ => ?_
      by_cases hz : state = .ZOMBIE
      · rw [if_pos hz]
        refine silent_then (.read .refl _) fun pid H' _ => ?_
        refine silent_then (.read .refl _) fun status H' _ => ?_
        by_cases ha : addr ≠ 0
        · rw [if_pos ha]
          refine .bind (copyout_calls (by simp [intBytes]) ?_ ?_)
          · refine (reap_calls (fun _ => rfl) (by simp)).mono fun r a hr => ?_
            obtain ⟨rfl, hr⟩ := hr
            exact hr
          · refine silent_then (.write fun d => .record d rfl) fun _ H' _ => ?_
            exact silent_then (.unlock (others _ (by simp))) fun _ H' _ =>
              .ret ⟨H', _, _, rfl, .inr ⟨rfl, .inr rfl⟩⟩
        · rw [if_neg ha]
          refine (reap_calls (fun h => absurd h ha) (by simp)).mono fun r a hr => ?_
          obtain ⟨rfl, hr⟩ := hr
          exact hr
      · rw [if_neg hz]
        exact silent_then (.unlock (others _ (by simp))) fun _ H' _ => .ret ⟨H', rfl⟩
  · rw [dif_neg hlt]
    exact .ret ⟨H', rfl⟩

theorem WaitEnds.unlock {addr : UInt64} {r : Int32} {a : Set LockId × CallMode}
    (h : WaitEnds t addr r a) :
    (callOutline calls).Safe t a (do unlock .wait; pure r : KCode Int32) fun r a => WaitEnds t addr r a := by
  obtain ⟨H, done, note, rfl, hend⟩ := h
  exact silent_then (.unlock (others _ (by simp))) fun _ H' _ => .ret ⟨H', done, note, rfl, hend⟩

theorem kwait_calls (addr : UInt64) : (callOutline calls).Safe t (H, .busy (.wait addr) [] .plain)
    (kwait t addr) fun r a => WaitEnds t addr r a := by
  refine silent_then (.lock (others _ (by simp))) fun _ H' _ => .bind ?_
  refine (Outline.Safe.loop (fun _ a => ∃ H', a = (H', CallMode.busy (.wait addr) [] .plain))
    (Q := fun r a => WaitEnds t addr r a) (fun _ a ha => ?_) ⟨H', rfl⟩).mono fun r a ha => ha.unlock
  obtain ⟨H', rfl⟩ := ha
  refine silent_then (.write fun d => .record d rfl) fun _ H' _ => ?_
  refine .bind ((kwaitScan_calls addr).mono fun scan a ha => ?_)
  cases scan with
  | reaped pid => exact .ret ha
  | copyFailed => exact .ret ha
  | kids havekids =>
    obtain ⟨H', rfl⟩ := ha
    have hnone (H' : Set LockId) : WaitEnds t addr (-1) (H', .busy (.wait addr) [] .plain) :=
      ⟨H', [], .plain, rfl, .inr ⟨rfl, .inl rfl⟩⟩
    cases havekids with
    | false => exact .ret (hnone H')
    | true =>
      refine silent_then (killed_uses others t) fun stop H' _ => ?_
      cases stop with
      | true => exact .ret (hnone H')
      | false =>
        exact silent_then (sleep_uses others t _ (others _ (by simp))) fun _ H' _ => .ret ⟨H', rfl⟩

/-! The pipe. -/

/-- `sleep` gives back `pi->lock` and takes it again. -/
theorem sleep_pipe_calls {Q : Unit → Set LockId × CallMode → Prop} (chan : Chan) (hx : x.loose)
    (hQ : ∀ H', LockId.pipe ∈ H' → Q () (H', x)) :
    (callOutline calls).Safe t (H, x) (sleep t chan .pipe) Q := by
  refine loose_then hx (.lock trivial) fun _ H' => ?_
  refine loose_then hx (.unlock trivial) fun _ H' => ?_
  refine loose_then hx (onProc_uses t _) fun _ H' => ?_
  refine loose_then hx (sched_uses every t) fun _ H' => ?_
  refine loose_then hx (onProc_uses t _) fun _ H' => ?_
  refine loose_then hx (.unlock trivial) fun _ H' => ?_
  refine loose_then hx (preempt_uses every t) fun _ H' => ?_
  exact calls_lock hx (hQ _ (Set.mem_insert ..))

/-- A change of the pipe by the process that holds its lock. -/
theorem pipe_step {done : List Event} {note : Note} (hp : LockId.pipe ∈ H) (hmem : d'.mem = d.mem)
    (htrace : d'.trace = d.trace ∨ ∃ e, e.silent = true ∧ d'.trace = e :: d.trace)
    (hk : (CallMode.busy c done note).knows past d t H) :
    OwnStep calls t (insert d' past) d d' H ∧
      (CallMode.busy c done .plain).knows (insert d' past) d' t H := by
  constructor
  · refine ⟨htrace.imp_right fun ⟨e, he, ht⟩ => ⟨e, ht, Event.silent_justified he, fun u _ =>
      ⟨Event.silent_opens he u, Event.silent_doneBy he u⟩⟩, fun u _ => by rw [hmem], .inr hp⟩
  · have hplain : (CallMode.busy c done .plain).knows past d t ∅ := ⟨hk.1, hk.2.1, trivial⟩
    have hplain' : (CallMode.busy c done .plain).knows (insert d' past) d' t ∅ :=
      CallMode.knows_other hplain (Set.subset_insert ..) (htrace.imp_right fun ⟨e, he, ht⟩ =>
        ⟨e, Event.silent_opens he t, Event.silent_doneBy he t, ht⟩) (by rw [hmem])
        (.inr (Set.notMem_empty _))
    exact hplain'

theorem pipe_write_calls {f : Tasks → Tasks} {Q : Unit → Set LockId × CallMode → Prop}
    (hp : LockId.pipe ∈ H) (hmem : ∀ d, (f d).mem = d.mem)
    (htrace : ∀ d, (f d).trace = d.trace ∨ ∃ e, e.silent = true ∧ (f d).trace = e :: d.trace)
    (hQ : Q () (H, .busy c [] .plain)) :
    (callOutline calls).Safe t (H, .busy c [] .plain) (write f : KCode Unit) Q := by
  refine calls_access fun past i d b d' hd hk h => ?_
  cases h
  obtain ⟨hstep, hknows⟩ := pipe_step hp (hmem d) (htrace d) hk
  exact ⟨.busy c [] .plain, hstep, hknows, hQ⟩

theorem pipeclose_calls (writable : Bool) : (callOutline calls).Safe t (H, .busy c [] .plain)
    (pipeclose t writable) fun _ a => ∃ H', a = (H', .busy c [] .plain) := by
  refine .bind (calls_lock trivial ?_)
  have hend (chan : Chan) : (callOutline calls).Safe t (insert .pipe H, .busy c [] .plain) (do
      wakeup t chan
      unlock .pipe : KCode Unit) fun _ a => ∃ H', a = (H', .busy c [] .plain) := by
    refine silent_then (wakeup_uses others t chan) fun _ H' _ => ?_
    exact calls_unlock (.busy c [] .plain) (fun _ _ hk => hk) ⟨_, rfl⟩
  cases writable with
  | true =>
    exact .bind (pipe_write_calls (Set.mem_insert ..) (fun _ => rfl) (fun _ => .inl rfl) (hend .nread))
  | false =>
    exact .bind (pipe_write_calls (Set.mem_insert ..) (fun _ => rfl) (fun _ => .inl rfl) (hend .nwrite))

theorem copyin_uses {L : Set LockId} (addr : UInt64) : (copyin t addr).Uses L Silent := by
  refine .access fun i d b d' h => ?_
  cases i with
  | succeeds ok =>
    cases h
    exact .refl d
  | _ => cases h

theorem pipewrite_calls (addr : UInt64) (n : Int32) : (callOutline calls).Safe t (H, .busy c [] .plain)
    (pipewrite t addr n) fun _ a => ∃ H', a = (H', .busy c [] .plain) := by
  refine .bind (calls_lock trivial (.bind ?_))
  refine (Outline.Safe.loop (fun _ a => ∃ H', LockId.pipe ∈ H' ∧ a = (H', CallMode.busy c [] .plain))
    (Q := fun _ a => ∃ H', LockId.pipe ∈ H' ∧ a = (H', CallMode.busy c [] .plain))
    (fun i a ha => ?_) ⟨_, Set.mem_insert .., rfl⟩).mono fun r a ha => ?_
  · obtain ⟨H', hp, rfl⟩ := ha
    split_ifs with hi
    · refine silent_then (.read .refl _) fun readopen H1 h1 => ?_
      cases readopen with
      | false => exact .ret ⟨H1, h1.mpr hp, rfl⟩
      | true =>
        refine silent_then (killed_uses others t) fun stop H2 h2 => ?_
        have hp2 := h2.mpr (h1.mpr hp)
        cases stop with
        | true => exact .ret ⟨H2, hp2, rfl⟩
        | false =>
          refine silent_then (noted_uses rfl) fun full H3 h3 => ?_
          have hp3 := h3.mpr hp2
          cases full with
          | true =>
            refine silent_then (wakeup_uses others t _) fun _ H4 _ => ?_
            exact .bind (sleep_pipe_calls _ trivial fun H' hp => .ret ⟨H', hp, rfl⟩)
          | false =>
            refine silent_then (copyin_uses _) fun ch H4 h4 => ?_
            cases ch with
            | none => exact .ret ⟨H4, h4.mpr hp3, rfl⟩
            | some ch =>
              exact .bind (pipe_write_calls (h4.mpr hp3) (fun _ => rfl)
                (fun d => .inr ⟨.put t ch, rfl, rfl⟩) (.ret ⟨H4, h4.mpr hp3, rfl⟩))
    · exact .ret ⟨H', hp, rfl⟩
  · obtain ⟨H', hp, rfl⟩ := ha
    cases r with
    | none => exact loose_then trivial (.unlock trivial) fun _ H' => .ret ⟨H', rfl⟩
    | some i =>
      refine loose_then trivial (wakeup_uses every t _) fun _ H' => ?_
      exact loose_then trivial (.unlock trivial) fun _ H' => .ret ⟨H', rfl⟩

/-- At the end of `piperead` and of its copy loop: if it was to read something and has not, there was
nothing to read, or the address is bad. -/
def ReadEnds (t : Fin NPROC) (c : Call) (n : Int32) (r : ℤ) (a : Set LockId × CallMode) : Prop :=
  ∃ H done note, a = (H, .busy c done note) ∧
    (r = 0 → 0 < n.toInt → .badAddress t ∈ done ∨ note = .drained)

theorem pipereadCopy_calls (addr : UInt64) (n : Int32) (hp : LockId.pipe ∈ H) :
    (callOutline calls).Safe t (H, .busy c [] .awaited) (pipereadCopy t addr n) fun i a =>
      ReadEnds t c n i a := by
  refine Outline.Safe.loop (fun i a => ∃ H' note, LockId.pipe ∈ H' ∧
    a = (H', CallMode.busy c [] note) ∧ (i = 0 → note = .awaited)) (fun i a ha => ?_)
    ⟨H, .awaited, hp, rfl, fun _ => rfl⟩
  obtain ⟨H', note, hp, rfl, hnote⟩ := ha
  split_ifs with hi
  · refine .bind (calls_access fun past j d b d' hd hk hf => ?_)
    cases hempty : d.pipe.empty with
    | true =>
      rw [if_pos hempty] at hf
      cases hf
      have hstep : OwnStep calls t (insert d past) d d H' := (Silent.refl d).ownStep t H'
      by_cases hzero : i = 0
      · -- The wait is over and there is no byte, so that the write end is closed.
        obtain rfl := hnote hzero
        have hclosed : d.pipe.writeopen = false := by
          have hwait := hk.2.2.2
          rwa [hempty, Bool.true_and] at hwait
        have hseen : Seen past t c d.trace AtEnd := .now hd hk.1 ⟨hempty, hclosed⟩
        exact ⟨.busy c [] .drained, hstep, ⟨hk.1, hk.2.1, hseen.mono (Set.subset_insert ..)⟩,
          .ret ⟨H', [], .drained, rfl, fun _ _ => .inr rfl⟩⟩
      · exact ⟨_, hstep, (Silent.refl d).knows hk,
          .ret ⟨H', [], note, rfl, fun h => absurd (Int.natCast_eq_zero.mp h) hzero⟩⟩
    | false =>
      rw [if_neg (by rw [hempty]; simp)] at hf
      cases hf
      refine ⟨.busy c [] .plain, and_assoc.mp ⟨pipe_step hp rfl (.inr ⟨_, ?_, rfl⟩) hk, ?_⟩⟩
      · rfl
      refine .bind (copyout_calls (by simp) ?_ ?_)
      · exact .ret ⟨H', _, hp, rfl, fun h => absurd h (Nat.succ_ne_zero i)⟩
      · exact .ret ⟨H', _, _, rfl, fun _ _ => .inl List.mem_cons_self⟩
  · refine .ret ⟨H', [], note, rfl, fun hzero hn => absurd ?_ hi⟩
    rw [hzero]
    exact hn

theorem ReadEnds.finish {n : Int32} {i : ℕ} {a : Set LockId × CallMode} (h : ReadEnds t c n i a) :
    (callOutline calls).Safe t a (do
      wakeup t .nwrite
      unlock .pipe
      pure (i:ℤ) : KCode ℤ) fun r a => ReadEnds t c n r a := by
  obtain ⟨H, done, note, rfl, hend⟩ := h
  refine silent_then (wakeup_uses others t _) fun _ H' _ => .bind ?_
  cases note with
  | drained => exact calls_unlock (.busy c done .drained) (fun _ _ hk => hk) (.ret ⟨_, done, .drained, rfl, hend⟩)
  | _ =>
    -- What else the process knows is of no more use.
    refine calls_unlock (.busy c done .plain) (fun _ _ hk => ⟨hk.1, hk.2.1, trivial⟩) (.ret ⟨_, done, _, rfl, ?_⟩)
    exact fun hr hn => .inl ((hend hr hn).resolve_right (by simp))

theorem piperead_calls (addr : UInt64) (n : Int32) : (callOutline calls).Safe t (H, .busy c [] .plain)
    (piperead t addr n) fun r a => ReadEnds t c n r a := by
  refine .bind (calls_lock trivial (.bind ?_))
  refine (Outline.Safe.loop (fun _ a => ∃ H', LockId.pipe ∈ H' ∧ a = (H', CallMode.busy c [] .plain))
    (Q := fun r a => ∃ H', LockId.pipe ∈ H' ∧
      a = (H', CallMode.busy c [] (if r then .awaited else .plain)))
    (fun _ a ha => ?_) ⟨_, Set.mem_insert .., rfl⟩).mono fun r a ha => ?_
  · obtain ⟨H', hp, rfl⟩ := ha
    refine .bind (calls_access fun past i d b d' hd hk hf => ?_)
    cases hf
    have hs : Silent d (d.record (.tested t .nread)) := .record d rfl
    have hk' := hs.knows hk
    cases hwait : (d.pipe.empty && d.pipe.writeopen) with
    | false =>
      exact ⟨.busy c [] .awaited, hs.ownStep t _, ⟨hk'.1, hk'.2.1, hp, hwait⟩, .ret ⟨H', hp, rfl⟩⟩
    | true =>
      refine ⟨.busy c [] .plain, hs.ownStep t _, hk', ?_⟩
      refine silent_then (killed_uses others t) fun stop H'' hH => ?_
      cases stop with
      | true => exact .ret ⟨H'', hH.mpr hp, rfl⟩
      | false => exact .bind (sleep_pipe_calls _ trivial fun H' hp => .ret ⟨H', hp, rfl⟩)
  · obtain ⟨H', hp, rfl⟩ := ha
    cases r with
    | false =>
      exact loose_then trivial (.unlock trivial) fun _ H' => .ret ⟨H', [], .plain, rfl, by simp⟩
    | true => exact .bind ((pipereadCopy_calls addr n hp).mono fun i a ha => ha.finish)

/-! A process in user space, and all its calls. -/

/-- At the end of the call, what the process knows makes its answer right. -/
def Settles (t : Fin NPROC) (c : Call) (r : Option ℤ) (a : Set LockId × CallMode) : Prop :=
  ∃ H done note, a = (H, .busy c done note) ∧ ∀ v, r = some v → ∀ past d,
    (CallMode.busy c done note).knows past d t H →
      Answer past d.trace t v (d.load t c.buffer.1 c.buffer.2) c

/-- A call of which nothing is said. -/
theorem Settles.any {done : List Event} {note : Note} {r : Option ℤ}
    (hc : ∀ past earlier v bytes, Answer past earlier t v bytes c) :
    Settles t c r (H, .busy c done note) :=
  ⟨H, done, note, rfl, fun _ _ _ _ _ => hc ..⟩

theorem WaitEnds.settles {addr : UInt64} {r : Int32} {a : Set LockId × CallMode}
    (h : WaitEnds t addr r a) : Settles t (.wait addr) (some r.toInt) a := by
  obtain ⟨H, done, note, rfl, hend⟩ := h
  refine ⟨H, done, note, rfl, fun v hv past d hk => ?_⟩
  rcases hend with ⟨child, parent, status, rfl, hn⟩ | ⟨rfl, hd⟩
  · refine .inl ⟨child, parent, r, status, hk.2.1, (Option.some.inj hv).symm, fun ha => ?_⟩
    have hfilled := hk.2.2
    rw [hn ha] at hfilled
    exact hfilled
  · exact .inr ⟨hd.imp hk.2.1.trans hk.2.1.trans, (Option.some.inj hv).symm⟩

theorem ReadEnds.settles {addr : UInt64} {n : Int32} {r : ℤ} {a : Set LockId × CallMode}
    (h : ReadEnds t (.piperead addr n) n r a) : Settles t (.piperead addr n) (some r) a := by
  obtain ⟨H, done, note, rfl, hend⟩ := h
  refine ⟨H, done, note, rfl, fun v hv past d hk hr hn hbad => ?_⟩
  obtain rfl := Option.some.inj hv
  rcases hend hr hn with hmem | rfl
  · rw [hk.2.1] at hbad
    exact absurd hmem hbad
  · exact hk.2.2

/-- The calls of processes that fork, wait and kill, or that use a pipe. -/
def answered : Call → Bool
  | .pause _ | .consoleread .. | .consoleintr _ | .waitFor .. | .signal .. => false
  | _ => true

theorem perform_calls (ha : answered c) (hc : ∀ status, c ≠ .exit status) :
    (callOutline calls).Safe t (H, .busy c [] .plain) (perform t c) fun r a => Settles t c r a := by
  cases c with
  | exit status => exact absurd rfl (hc status)
  | fork =>
    refine .bind (kfork_calls.mono fun r a ha => .ret ?_)
    obtain ⟨H', rfl | ⟨rfl, rfl⟩⟩ := ha
    · exact ⟨H', _, _, rfl, fun v hv past d hk =>
        .inl ⟨r, hk.2.1, (Option.some.inj hv).symm, hk.2.2⟩⟩
    · exact ⟨H', _, _, rfl, fun v hv past d hk => .inr ⟨hk.2.1, (Option.some.inj hv).symm⟩⟩
  | wait addr => exact .bind ((kwait_calls addr).mono fun r a ha => .ret ha.settles)
  | kill pid =>
    refine .bind ((kkill_calls pid).mono fun r a ha => .ret ?_)
    obtain ⟨H', ⟨rfl, rfl⟩ | ⟨rfl, rfl⟩⟩ := ha
    · exact ⟨H', _, _, rfl, fun v hv past d hk => .inl ⟨(Option.some.inj hv).symm, hk.2.2⟩⟩
    · exact ⟨H', _, _, rfl, fun v hv past d hk => .inr (Option.some.inj hv).symm⟩
  | piperead addr n => exact .bind ((piperead_calls addr n).mono fun r a ha => .ret ha.settles)
  | pipewrite addr n =>
    refine .bind ((pipewrite_calls addr n).mono fun r a ha => .ret ?_)
    obtain ⟨H', rfl⟩ := ha
    exact .any fun _ _ _ _ => trivial
  | pipeclose writable =>
    refine .bind ((pipeclose_calls writable).mono fun r a ha => .ret ?_)
    obtain ⟨H', rfl⟩ := ha
    exact .any fun _ _ _ _ => trivial
  | fault =>
    exact silent_then (setkilled_uses others t) fun _ H' _ => .ret (.any fun _ _ _ _ => trivial)
  | yield =>
    exact silent_then (yield_uses others t) fun _ H' _ => .ret (.any fun _ _ _ _ => trivial)
  | clockintr =>
    exact silent_then (clockintr_uses others t) fun _ H' _ => .ret (.any fun _ _ _ _ => trivial)
  | _ => cases ha

theorem sysReturn_calls {r : Option ℤ} {a : Set LockId × CallMode} (h : Settles t c r a) :
    (callOutline calls).Safe t a (sysReturn t c r) fun _ _ => True := by
  cases r with
  | none => exact .ret trivial
  | some r =>
    obtain ⟨H, done, note, rfl, ha⟩ := h
    refine calls_access fun past i d b d' hd hk hf => ⟨.user, ⟨.inr ?_, fun u _ => ?_, .inl ?_⟩, trivial, trivial⟩
    all_goals cases hf
    · refine ⟨_, rfl, ⟨hk.1, ?_⟩, fun u _ => ⟨rfl, rfl⟩⟩
      have hanswer := ha r rfl past d hk
      have hmono : Justified calls past d.trace (.returned t c r _) := ⟨hk.1, hanswer⟩
      exact (hmono.mono (Set.subset_insert ..)).2
    · rfl
    · rfl

theorem userLoop_calls (hcalls : ∀ c, calls c → answered c) :
    (callOutline calls).Safe t (H, x) (userLoop calls t) fun _ _ => True := by
  refine Outline.Safe.loop (fun _ _ => True) (fun _ a _ => ?_) trivial
  obtain ⟨H, x⟩ := a
  refine .bind (calls_access fun past i d b d' hd hk hf => ?_)
  cases i with
  | call c =>
    obtain ⟨hc, hf⟩ := Option.ite_none_right_eq_some.mp hf
    cases hf
    refine ⟨.busy c [] .plain, ?_, ⟨if_pos rfl, ?_, trivial⟩, ?_⟩
    · exact ⟨.inr ⟨.called t c, rfl, hc, fun u hu => ⟨decide_eq_false hu.symm, rfl⟩⟩,
        fun _ _ => rfl, .inl rfl⟩
    · change doneIn t (.called t c :: d.trace) = []
      simp [doneIn, Event.opens]
    · have hother (hne : ∀ status, c ≠ .exit status) :
          (callOutline calls).Safe t (H, .busy c [] .plain) (do
            let r ← perform t c
            sysReturn t c r
            pure (.inl ()) : KCode (Unit ⊕ Unit)) fun r a => r.elim (fun _ => True) fun _ => True :=
        .bind ((perform_calls (hcalls c hc) hne).mono fun r a ha =>
          .bind ((sysReturn_calls ha).mono fun _ _ _ => .ret trivial))
      cases c with
      | exit status => exact .bind ((kexit_calls status).mono fun _ _ _ => .ret trivial)
      | _ => exact hother (by simp)
  | store addr b =>
    cases hf
    exact ⟨.user, store_ownStep d t addr [b], trivial, .ret trivial⟩
  | _ => cases hf

theorem life_calls (hcalls : ∀ c, calls c → answered c) :
    (callOutline calls).Safe t (H, x) (life calls t) fun _ _ => True := by
  refine Outline.Safe.loop (fun _ _ => True) (fun _ a _ => ?_) trivial
  obtain ⟨H, x⟩ := a
  refine silent_then (scheduler_uses others t) fun _ H' _ => ?_
  refine silent_then (.unlock (others _ (by simp))) fun _ H' _ => ?_
  exact .bind ((userLoop_calls hcalls).mono fun _ _ _ => .ret trivial)

/-- In every interleaving: what a call returns, and what `wait` leaves in the buffer of the caller, is
right, and so are the other events of the trace. -/
theorem calls_right {ws : List KPool} {w : KPool} (hcalls : ∀ c, calls c → answered c)
    (hd : d.trace = []) (hp : Pool.Path Pool.anyStep (kernelStart calls d) ws w)
    (later earlier : List Event) (e : Event) (hsplit : w.data.trace = later ++ e :: earlier) : Justified calls (Pool.visited ws) earlier e := by
  have hinv : (callOutline calls).inv {d} d fun _ => (∅, .user) := by
    refine ⟨rfl, fun _ => trivial, fun later e earlier hs => ?_⟩
    rw [hd] at hs
    simp at hs
  have hheld : Held (fun _ => none) fun _ : Fin NPROC => ((∅ : Set LockId), CallMode.user) := by
    intro l t
    simp
  obtain ⟨g, hi, -⟩ := Outline.invariant_path (O := callOutline calls) hinv hheld
    (fun t => life_calls hcalls) hp
  exact hi.justified later e earlier hsplit

end Xv6.Threads
