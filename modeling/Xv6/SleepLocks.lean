import Xv6.SleepMonitor

/-! Sleep locks, by any processes in any interleaving. The spin lock of the sleep lock is `other 0`,
and its address `other 0 0`. -/
namespace Xv6.Threads
open Code Function

/-- `initsleeplock`. -/
def initsleeplock : SleepLock := ⟨false, 0⟩

def acquiresleep (p : Fin NPROC) : KCode Unit := do
  lock (.other 0)
  loop (fun _ : Unit => do
    -- The last test and the writes after it are one step: nobody looks without the spin lock.
    let locked ← access fun _ d =>
      if d.slock.locked then some (true, d)
      else some (false, { d with slock := ⟨true, (d.proc p).pid⟩ })
    if locked then do
      sleep p (.other 0 0) (.other 0)
      pure (.inl ())
    else pure (.inr ())) ()
  unlock (.other 0)

def releasesleep (p : Fin NPROC) : KCode Unit := do
  lock (.other 0)
  write fun d => { d with slock := ⟨false, 0⟩ }
  wakeup p (.other 0 0)
  unlock (.other 0)

/-- The answer of `holdingsleep`. -/
def Tasks.holds (d : Tasks) (p : Fin NPROC) : Bool :=
  d.slock.locked && d.slock.pid == (d.proc p).pid

def holdingsleep (p : Fin NPROC) : KCode Bool := do
  lock (.other 0)
  let r ← read fun d => d.holds p
  unlock (.other 0)
  pure r

/-- A process that is interrupted, asks for the holder and takes the lock whenever it likes, and
gives the lock back only when it has it. It records when a call has returned, what `holdingsleep`
has answered, and when it goes on to give the lock back. -/
def slockLoop (p : Fin NPROC) : KCode Unit :=
  loop (fun has : Bool => do
    preempt p
    let look ← succeeds
    if look then do
      let r ← holdingsleep p
      write fun d => d.record (.holding p r)
      pure (.inl has)
    else if has then do
      write fun d => d.record (.releasing p)
      releasesleep p
      pure (.inl false)
    else do
      acquiresleep p
      write fun d => d.record (.acquired p)
      pure (.inl true)) false

def slockLife (p : Fin NPROC) : KCode Unit := do
  scheduler p
  unlock (.proc p)
  slockLoop p

/-- The process is back from its `acquiresleep`, and has not called `releasesleep` since. -/
def between (p : Fin NPROC) : List Event → Bool
  | [] => false
  | .acquired q :: es => if q = p then true else between p es
  | .releasing q :: es => if q = p then false else between p es
  | _ :: es => between p es

/-- Every answer of `holdingsleep` was right when it came. -/
def RightAnswers (trace : List Event) : Prop :=
  ∀ later earlier p r, trace = later ++ .holding p r :: earlier → r = between p earlier

theorem RightAnswers.cons {trace : List Event} {e : Event} (h : RightAnswers trace)
    (he : ∀ p r, e = .holding p r → r = between p trace) : RightAnswers (e :: trace) := by
  intro later earlier p r heq
  cases later with
  | nil =>
    obtain ⟨hhead, rfl⟩ := List.cons.inj heq
    exact he p r hhead
  | cons e' later =>
    obtain ⟨-, htail⟩ := List.cons.inj heq
    exact h later earlier p r htail

/-- All processes that are there have different pids. -/
def DistinctPids (d : Tasks) : Prop :=
  ∀ p q, (d.proc p).state ≠ .UNUSED → (d.proc q).state ≠ .UNUSED →
    (d.proc p).pid = (d.proc q).pid → p = q

/-- Where a user of the lock is. -/
inductive SlockMode where
  | out
  /-- It has the lock, but is in `acquiresleep` or `releasesleep` still. -/
  | owner
  | inside
  deriving DecidableEq

variable {d0 d d' : Tasks} {x : Fin NPROC → SlockMode} {p t : Fin NPROC}

/-- What holds of the sleep lock in every state reached from `d0`. -/
structure SlockInv (d0 d : Tasks) (x : Fin NPROC → SlockMode) : Prop where
  pid : ∀ p, (d.proc p).pid = (d0.proc p).pid
  used : ∀ p, (d.proc p).state ≠ .UNUSED → (d0.proc p).state ≠ .UNUSED
  owner : ∀ p, x p ≠ .out → d.slock.locked = true ∧ d.slock.pid = (d0.proc p).pid ∧
    (d0.proc p).state ≠ .UNUSED ∧ ∀ q, x q ≠ .out → q = p
  owned : d.slock.locked = true → ∃ p, x p ≠ .out
  inside : ∀ p, between p d.trace = true ↔ x p = .inside
  answers : RightAnswers d.trace

namespace SlockInv

section
variable (h : SlockInv d0 d x)
include h

/-- What the processes are up to does not matter, as long as none appears. -/
theorem congr (hslock : d'.slock = d.slock) (htrace : d'.trace = d.trace)
    (hpid : ∀ p, (d'.proc p).pid = (d.proc p).pid)
    (hused : ∀ p, (d'.proc p).state ≠ .UNUSED → (d.proc p).state ≠ .UNUSED) :
    SlockInv d0 d' x where
  pid p := (hpid p).trans (h.pid p)
  used p hp := h.used p (hused p hp)
  owner := by
    rw [hslock]
    exact h.owner
  owned := by
    rw [hslock]
    exact h.owned
  inside := by
    rw [htrace]
    exact h.inside
  answers := by
    rw [htrace]
    exact h.answers

theorem resched {q : Fin NPROC} (hd : Resched q d d') : SlockInv d0 d' x := by
  obtain ⟨state, chan, hlive, -, rfl⟩ := hd
  refine h.congr rfl rfl (fun p => ?_) fun p hp => ?_
  · by_cases hpq : p = q
    · rw [hpq, Tasks.setProc_self]
    · rw [Tasks.setProc_of_ne _ hpq]
  · by_cases hpq : p = q
    · intro hu
      rw [← hpq, hu] at hlive
      exact hlive
    · rwa [Tasks.setProc_of_ne _ hpq] at hp

theorem woken (chan : Chan) : SlockInv d0 (d.record (.woken chan)) x where
  __ := h
  answers := h.answers.cons (by simp)

/-- With different pids, the answer of `holdingsleep` is right. -/
theorem holds_iff (hpid : DistinctPids d0) (hp : (d.proc p).state ≠ .UNUSED) :
    d.holds p = true ↔ x p ≠ .out := by
  rw [Tasks.holds, Bool.and_eq_true, beq_iff_eq, h.pid p]
  constructor
  · rintro ⟨hl, hpp⟩
    obtain ⟨q, hq⟩ := h.owned hl
    obtain ⟨-, hqp, hqu, -⟩ := h.owner q hq
    rwa [hpid p q (h.used p hp) hqu (hpp.symm.trans hqp)]
  · intro hb
    obtain ⟨hl, hpp, -⟩ := h.owner p hb
    exact ⟨hl, hpp⟩

/-- A free lock has no owner. -/
theorem all_out (hl : d.slock.locked = false) (p : Fin NPROC) : x p = .out := by
  by_contra hp
  obtain ⟨hlocked, -⟩ := h.owner p hp
  rw [hl] at hlocked
  cases hlocked

/-- The owner comes or goes on inside `acquiresleep` and `releasesleep`, which record nothing. -/
theorem inside_update {m : SlockMode} (hp : x p ≠ .inside) (hm : m ≠ .inside) (q : Fin NPROC) :
    between q d.trace = true ↔ update x p m q = .inside := by
  by_cases hq : q = p
  · rw [hq, update_self, h.inside p]
    exact iff_of_false hp hm
  · rw [update_of_ne hq]
    exact h.inside q

theorem acquire (hl : d.slock.locked = false) (hp : (d.proc p).state ≠ .UNUSED) :
    SlockInv d0 { d with slock := ⟨true, (d.proc p).pid⟩ } (update x p .owner) := by
  have honly (q : Fin NPROC) (hq : update x p .owner q ≠ .out) : q = p := by
    by_contra hqp
    rw [update_of_ne hqp] at hq
    exact hq (h.all_out hl q)
  refine ⟨h.pid, h.used, fun q hq => ?_, fun _ => ⟨p, by simp⟩, ?_, h.answers⟩
  · obtain rfl := honly q hq
    exact ⟨rfl, h.pid q, h.used q hp, honly⟩
  · exact h.inside_update (by simp [h.all_out hl p]) (by simp)

theorem release (hp : x p = .owner) :
    SlockInv d0 { d with slock := ⟨false, 0⟩ } (update x p .out) := by
  obtain ⟨-, -, -, honly⟩ := h.owner p (by simp [hp])
  refine ⟨h.pid, h.used, fun q hq => ?_, by simp, h.inside_update (by simp [hp]) (by simp),
    h.answers⟩
  by_cases hqp : q = p
  · simp [hqp] at hq
  · rw [update_of_ne hqp] at hq
    exact absurd (honly q hq) hqp

/-- The owner records that it goes in, or that it comes out. -/
theorem turn {m : SlockMode} {e : Event} (hp : x p ≠ .out) (hm : m ≠ .out)
    (he : ∀ q, between q (e :: d.trace) = if q = p then decide (m = .inside) else between q d.trace)
    (hans : ∀ q r, e ≠ .holding q r) : SlockInv d0 (d.record e) (update x p m) := by
  have hout (q : Fin NPROC) : update x p m q ≠ .out ↔ x q ≠ .out := by
    by_cases hq : q = p
    · rw [hq, update_self]
      exact iff_of_true hm hp
    · rw [update_of_ne hq]
  refine ⟨h.pid, h.used, fun q hq => ?_, fun hl => ?_, fun q => ?_,
    h.answers.cons fun q r hqr => absurd hqr (hans q r)⟩
  · simp only [hout] at hq ⊢
    exact h.owner q hq
  · obtain ⟨q, hq⟩ := h.owned hl
    exact ⟨q, (hout q).mpr hq⟩
  · rw [Tasks.record, he q]
    by_cases hq : q = p
    · simp [hq]
    · rw [if_neg hq, update_of_ne hq]
      exact h.inside q

end

end SlockInv

def slockOf (g : Modes SlockMode) : Fin NPROC → SlockMode := fun t => (g t).2.2

theorem slockOf_update (g : Modes SlockMode) (t : Fin NPROC) (a : Stand SlockMode) :
    slockOf (update g t a) = update (slockOf g) t a.2.2 :=
  comp_update (fun b : Stand SlockMode => b.2.2) g t a

theorem slockOf_eq {g : Modes SlockMode} {H : Set LockId} {s : SleepMode} {m : SlockMode}
    (hg : g t = (H, (s, m))) : slockOf g t = m := by rw [slockOf, hg]

/-- A process sleeps on the lock only while it is locked. -/
def slockMonitor (d0 : Tasks) : Monitor SlockMode where
  ok := Pool.anyStep
  may chan _ d := chan = .other 0 0 → d.slock.locked = true
  lax _ := True
  rest d g := SlockInv d0 d (slockOf g)

theorem slockMonitor_steady (d0 : Tasks) : (slockMonitor d0).Steady where
  resched := by
    rintro c j q d _ hw ⟨state, chan, -, -, rfl⟩
    exact hw
  woken _ hw := hw
  tick _ hw := hw

theorem slockMonitor_idle (d0 : Tasks) (m : SlockMode) : (slockMonitor d0).Idle m := by
  have hset {d : Tasks} {g : Modes SlockMode} {t : Fin NPROC} {H : Set LockId} {s : SleepMode}
      (hr : (slockMonitor d0).rest d g) (hm : (g t).2.2 = m) :
      (slockMonitor d0).rest d (update g t (H, (s, m))) := by
    change SlockInv d0 d _
    rw [slockOf_update, ← hm]
    exact (update_eq_self t (slockOf g)).symm ▸ hr
  exact {
    relock := fun hr hm _ => hset hr hm
    resched := fun hr _ _ hd => hr.resched hd
    woken := fun hr _ => hr.woken _
    tick := fun hr _ => hr.congr rfl rfl (fun _ => rfl) fun _ => id
    anyLocks := hset }

theorem acquiresleep_safe : (slockMonitor d0).outline.Leads t (∅, (.awake, .out)) (acquiresleep t)
    (∅, (.awake, .owner)) := by
  have hq := slockMonitor_idle d0
  refine .bind ((hq .out).lock fun hH => .bind (Outline.Safe.mono (Outline.Safe.loop
    (fun _ a => a = (insert (.other 0) ∅, (.awake, .out)))
    (Q := fun _ a => a = (insert (.other 0) ∅, (.awake, .owner))) (fun _ a ha => ?_) rfl)
    fun _ a ha => ?_))
  · subst ha
    refine .bind (Monitor.access_safe fun _ d lock g b d' hm hl hr hg hf _ => ?_)
    have hs := sleepOf_eq hg
    split at hf
    · -- The lock is taken: the process may sleep.
      rename_i hlocked
      cases hf
      refine ⟨.ready (.other 0 0), .out, hm.getReady (exclusive_of_held hl) (by rw [hs]; trivial)
        ?_ fun _ => hlocked, (hq .out).anyLocks hr (by rw [hg]), .bind ?_⟩
      · rw [heldOf, hg]
        exact Set.mem_insert ..
      refine (Monitor.sleep_safe (.other 0 0) (slockMonitor_steady d0) (hq .out)
        (fun d g hm _ _ hg => ?_) fun d g H' hr hg => (hq .out).anyLocks hr (by rw [hg])).mono
        fun _ a ha => .ret ha
      exact hm.stay hg
    · rename_i hfree
      cases hf
      have hrun := hm.running t (by rw [hs]; simp)
      refine ⟨.awake, .owner,
        .stay (hm.keep (fun _ => ⟨rfl, fun _ => rfl⟩) fun _ _ _ _ => rfl) hg, ?_, .ret rfl⟩
      change SlockInv d0 _ _
      rw [slockOf_update]
      exact SlockInv.acquire hr (Bool.eq_false_of_not_eq_true hfree) (by rw [hrun]; simp)
  · subst ha
    exact (hq .owner).unlock trivial hH rfl

theorem releasesleep_safe : (slockMonitor d0).outline.Leads t (∅, (.awake, .owner))
    (releasesleep t) (∅, (.awake, .out)) := by
  have hq := slockMonitor_idle d0
  refine .bind ((hq .owner).lock_owe (.other 0 0) fun hH =>
    .bind (Monitor.write_safe fun d lock g hm hl hr hg _ => ?_))
  have hs := sleepOf_eq hg
  refine ⟨.owes (.other 0 0) 0, .out, ?_, ?_, ?_⟩
  · exact Monitored.stay (hm.spoil (exclusive_of_held hl) hs (.inl trivial) (fun _ => ⟨rfl, rfl⟩)
      fun c _ hc _ h => absurd h hc) hg
  · change SlockInv d0 _ _
    rw [slockOf_update]
    exact SlockInv.release hr (slockOf_eq hg)
  exact .andThen (Monitor.wakeup_safe (.other 0 0) (slockMonitor_steady d0) (hq .out).toQuiet
    (.inl rfl) (Set.mem_insert ..)) fun _ => (hq .out).unlock le_rfl hH rfl

theorem holdingsleep_safe (hpid : DistinctPids d0) (m : SlockMode) :
    (slockMonitor d0).outline.Safe t (∅, (.awake, m)) (holdingsleep t)
      fun r a => (r = true ↔ m ≠ .out) ∧ a = (∅, (.awake, m)) := by
  have hq := slockMonitor_idle d0 m
  refine .bind (hq.lock fun hH => .bind (Monitor.access_same fun _ d lock g b d' hm _ hr hg hf _ => ?_))
  cases hf
  have hrun := hm.running t (by rw [sleepOf, hg]; simp)
  have hans := SlockInv.holds_iff hr hpid (p := t) (by rw [hrun]; simp)
  rw [slockOf_eq hg] at hans
  exact ⟨hm, hr, .bind (hq.unlock trivial hH (.ret ⟨hans, rfl⟩))⟩

/-- What a process records itself changes nothing for the sleepers. -/
theorem slockRecord_safe {m m' : SlockMode} {e : Event}
    (h : ∀ d g, SlockInv d0 d (slockOf g) → slockOf g t = m →
      SlockInv d0 (d.record e) (update (slockOf g) t m')) :
    (slockMonitor d0).outline.Leads t (∅, (.awake, m)) (write fun d => d.record e : KCode Unit)
      (∅, (.awake, m')) := by
  refine Monitor.write_safe fun d lock g hm _ hr hg _ => ⟨.awake, m',
    .stay (hm.keep (fun _ => ⟨rfl, fun _ => rfl⟩) fun _ _ h => h) hg, ?_, rfl⟩
  change SlockInv d0 _ _
  rw [slockOf_update]
  exact h d g hr (slockOf_eq hg)

theorem acquired_safe : (slockMonitor d0).outline.Leads t (∅, (.awake, .owner))
    (write fun d => d.record (.acquired t) : KCode Unit) (∅, (.awake, .inside)) := by
  refine slockRecord_safe fun d g hr hm => hr.turn (by simp [hm]) (by simp) (fun q => ?_) (by simp)
  simp [between, eq_comm]

theorem releasing_safe : (slockMonitor d0).outline.Leads t (∅, (.awake, .inside))
    (write fun d => d.record (.releasing t) : KCode Unit) (∅, (.awake, .owner)) := by
  refine slockRecord_safe fun d g hr hm => hr.turn (by simp [hm]) (by simp) (fun q => ?_) (by simp)
  simp [between, eq_comm]

/-- Outside `acquiresleep` and `releasesleep` the owner is inside. -/
theorem holding_safe {r has : Bool}
    (hr : r = true ↔ (if has then SlockMode.inside else .out) ≠ .out) :
    (slockMonitor d0).outline.Keeps t (∅, (.awake, if has then .inside else .out))
      (write fun d => d.record (.holding t r) : KCode Unit) := by
  refine slockRecord_safe fun d g h hm => ?_
  rw [← hm, update_eq_self]
  refine { h with answers := h.answers.cons fun p r' heq => ?_ }
  obtain ⟨rfl, rfl⟩ := Event.holding.inj heq
  rw [Bool.eq_iff_iff, hr, h.inside t, hm]
  cases has <;> simp

theorem slockLife_safe (hpid : DistinctPids d0) :
    (slockMonitor d0).outline.Safe t (∅, (.off, .out)) (slockLife t) fun _ _ => True := by
  have hs := slockMonitor_steady d0
  have hq := fun m => (slockMonitor_idle d0 m).toQuiet
  refine .andThen (Monitor.scheduler_safe hs (hq .out)) fun _ => ?_
  refine .bind ((hq .out).unlock_last (Set.notMem_empty _) (Set.empty_subset _) ?_)
  refine Outline.Safe.loop (fun has a => a = (∅, (.awake, if has then .inside else .out)))
    (fun has a ha => ?_) rfl
  subst ha
  refine .andThen (Monitor.preempt_safe hs (hq _)) fun _ => ?_
  refine .bind (Monitor.succeeds_safe fun look => ?_)
  cases look with
  | true =>
    refine .bind ((holdingsleep_safe hpid _).mono fun r a hr => ?_)
    obtain ⟨hr, rfl⟩ := hr
    exact .andThen (holding_safe hr) fun _ => .ret rfl
  | false =>
    cases has with
    | true => exact .andThen releasing_safe fun _ => .andThen releasesleep_safe fun _ => .ret rfl
    | false => exact .andThen acquiresleep_safe fun _ => .andThen acquired_safe fun _ => .ret rfl

/-- In every state that processes with different pids get to by using one sleep lock, at most one
of them is between its `acquiresleep` and its `releasesleep`, every answer of `holdingsleep` has
said whether its caller was, and nobody is `SLEEPING` on the lock while it is free. -/
theorem sleeplock_correct {d : Tasks} (hd : NoSleeper d) (ht : d.trace = [])
    (hl : d.slock = initsleeplock) (hpid : DistinctPids d) {w : KPool}
    (hr : Pool.Run Pool.anyStep ⟨d, fun _ => none, slockLife⟩ w) :
    (∀ p q, between p w.data.trace = true → between q w.data.trace = true → p = q) ∧
    (∀ later earlier p r, w.data.trace = later ++ .holding p r :: earlier →
      r = between p earlier) ∧
    (w.lock (.other 0) = none → w.data.slock.locked = false →
      ∀ p, ¬((w.data.proc p).state = .SLEEPING ∧ (w.data.proc p).chan = .other 0 0)) := by
  have hrest : (slockMonitor d).rest d fun _ => (∅, (.off, .out)) := by
    refine ⟨fun _ => rfl, fun _ => id, fun p hp => absurd rfl hp, ?_, ?_, ?_⟩
    · rw [hl]
      simp [initsleeplock]
    · rw [ht]
      simp [between, slockOf]
    · rw [ht]
      simp [RightAnswers]
  obtain ⟨g, hm, hinv, hheld⟩ := Monitor.reached (m := slockMonitor d) hd hrest
    (fun _ => slockLife_safe hpid) hr
  refine ⟨fun p q hp hq => ?_, hinv.answers, fun hfree hunlocked p hp => ?_⟩
  · obtain ⟨-, -, -, honly⟩ := hinv.owner q (by simp [(hinv.inside q).mp hq])
    exact honly p (by simp [(hinv.inside p).mp hp])
  · have hlocked := hm.may_of_free (.other 0 0) ((hheld.free_iff _).mp hfree) (.inl hp) rfl
    rw [hunlocked] at hlocked
    cases hlocked

/-- Process 0 has the lock and is told so, and process 1 sleeps on it. When 0 has given it back, 1
gets it, 0 is told that it has it no more, and process 2 sleeps. -/
theorem sleeplock_correct_waiter : ∃ w : KPool,
    Pool.Run Pool.anyStep ⟨processes 3, fun _ => none, slockLife⟩ w ∧
      w.data.trace = [.holding 0 false, .acquired 1, .woken (.other 0 0), .releasing 0,
        .holding 0 true, .acquired 0] ∧
      (w.data.proc 2).state = .SLEEPING ∧ (∀ p, between p w.data.trace = true → p = 1) ∧
      ∀ later earlier p r, w.data.trace = later ++ .holding p r :: earlier →
        r = between p earlier := by
  -- Where no timer interrupt comes, the process looks for the holder, or it goes on.
  let turn (p : Fin NPROC) (look : Bool) (n : ℕ) : List (Fin NPROC × Choice) :=
    [(p, .timer false), (p, .succeeds look)] ++ steps p n
  obtain ⟨w, hr, hw⟩ := Pool.Run.exists_of_exec Pool.anyStep
    ⟨processes 3, fun _ => none, slockLife⟩
    ( steps 0 6 ++ turn 0 false 7 ++ steps 1 6 ++ turn 1 false 8 ++ turn 0 true 6 ++
      turn 0 false 261 ++ steps 1 6 ++ [(1, .timer false)] ++ steps 1 7 ++ turn 0 true 6 ++
      steps 2 6 ++ turn 2 false 8)
    (fun w => decide (w.data.trace = [.holding 0 false, .acquired 1, .woken (.other 0 0),
      .releasing 0, .holding 0 true, .acquired 0] ∧ (w.data.proc 2).state = .SLEEPING))
    (by decide +kernel)
  obtain ⟨htrace, hsleep⟩ := of_decide_eq_true hw
  have hpids : DistinctPids (processes 3) := by
    unfold DistinctPids
    decide +kernel
  obtain ⟨hone, hans, -⟩ := sleeplock_correct (processes_noSleeper 3) rfl rfl hpids hr
  refine ⟨w, hr, htrace, hsleep, fun p hp => hone p 1 hp ?_, hans⟩
  rw [htrace]
  rfl

end Xv6.Threads
