import Xv6.CallAnswers
import Xv6.ForkExitWait

/-! Runs of processes that fork, exit, wait, kill and fault. -/
namespace Xv6.Threads
open Code Function

variable {strict : Prop} {start : Tasks} {d : Tasks} {t : Fin NPROC}

theorem family_kill_safe {pid : Int32} (hpid : strict → pid ≠ 0) :
    (family strict start).Keeps t (∅, (.awake, .idle)) (kkill t pid) := by
  refine Monitor.kkill_safe familyMonitor_steady familyMonitor_idle.toQuiet
    fun d lock g q hm _ hr _ _ => ⟨hm.kill fun c j hmay _ => ?_, ?_⟩
  · exact (Mild.of_kill q pid).familyMay hmay
  · have hkill := Mild.of_kill (d := d) q pid
    refine FamilyRest.mild hr hkill ?_ (fun hst hp => hp.kill q (hpid hst)) fun _ hb => ?_
    · rw [Tasks.kill]
      split
      all_goals exact hr.ledger.other rfl
    · rw [Tasks.kill] at hkill ⊢
      by_cases hp : (d.proc q).pid = pid
      · rw [if_pos hp] at hkill ⊢
        exact hkill.pids (hb.event (e := .kkill pid) rfl) rfl rfl rfl
      · rw [if_neg hp]
        exact hb.event rfl

theorem setkilled_safe : (family strict start).Keeps t (∅, (.awake, .idle)) (setkilled t) := by
  have hq : (familyMonitor strict start).Idle .idle := familyMonitor_idle
  refine .bind (hq.lock fun hH => .bind (Monitor.write_safe fun d lock g hm hl hr hg _ => ?_))
  obtain ⟨d', hd'⟩ : ∃ d', d' = (d.record (.setkilled t)).setProc t fun pr =>
    { pr with killed := true } := ⟨_, rfl⟩
  rw [← hd']
  have ht := sleepOf_eq hg
  have hrun := hm.running t (by rw [ht]; simp)
  have hothers (j : Fin NPROC) (hj : j ≠ t) : d'.proc j = d.proc j := by
    rw [hd', Tasks.setProc_of_ne _ hj]
    rfl
  have hself : d'.proc t = { d.proc t with killed := true } := by
    rw [hd', Tasks.setProc_self]
    rfl
  have htrace : d'.trace = .setkilled t :: d.trace := by rw [hd']; rfl
  have hmild : Mild d d' := Mild.of_slot (by rw [hd']; rfl) hothers (by rw [hself])
    (by rw [hself]) (by rw [hself]) (.inl (by rw [hself]))
  refine ⟨.awake, .idle, ?_, ?_, unlock_idle _ hH rfl⟩
  · exact (hm.keep_slot hothers (by rw [hself]) (fun _ => by rw [hself])
      fun c j => hmild.familyMay).stay hg
  · rw [← hg, update_eq_self]
    refine FamilyRest.mild hr hmild ?_ (fun _ hp => ?_) fun _ hb =>
      hmild.pids (hb.event (e := .setkilled t) rfl) rfl (by rw [hd']; rfl) htrace
    · rw [htrace]
      exact hr.ledger.other rfl
    · rw [htrace]
      have hevent : Provenance d.proc (.setkilled t :: d.trace) := hp.event (by simp)
      refine hevent.slot hothers (by rw [hself, hrun]; simp) fun _ => .inr ?_
      exact List.mem_cons_self

def familyCalls : Call → Bool
  | .fork | .exit _ | .wait _ | .kill _ | .fault | .yield | .clockintr => true
  | _ => false

theorem familyCalls_answered (c : Call) (hc : familyCalls c) : answered c := by
  cases c <;> first | rfl | cases hc

/-- The same, without `kkill(0)`. -/
def namedCalls : Call → Bool
  | .kill pid => pid ≠ 0
  | c => familyCalls c

variable {calls : Call → Bool}

theorem family_life_safe (hcalls : ∀ c, calls c → familyCalls c)
    (hstrict : strict → ∀ pid, calls (.kill pid) → pid ≠ 0) :
    (family strict start).Safe t (∅, (.off, .idle)) (life calls t) fun _ _ => True := by
  have hs : (familyMonitor strict start).Steady := familyMonitor_steady
  have hq : (familyMonitor strict start).Quiet .idle := familyMonitor_idle.toQuiet
  refine Monitor.life_safe hs hq familyMonitor_detached (fun c hc hne => ?_) fun status _ =>
    kexit_safe status
  have hfam := hcalls c hc
  cases c with
  | fork => exact .andThen kfork_safe fun _ => .ret rfl
  | exit status => exact absurd rfl (hne status)
  | wait addr => exact .andThen (kwait_safe addr) fun _ => .ret rfl
  | kill pid =>
    exact .andThen (family_kill_safe fun hst => hstrict hst pid hc) fun _ => .ret rfl
  | fault => exact .andThen setkilled_safe fun _ => .ret rfl
  | yield => exact .andThen (Monitor.yield_safe hs hq) fun _ => .ret rfl
  | clockintr => exact .andThen (Monitor.clockintr_safe hs hq) fun _ => .ret rfl
  | _ => cases hfam

/-- A process table to start from: nobody sleeps or has exited, and parents are there. -/
structure FamilyStart (d : Tasks) : Prop where
  noSleeper : NoSleeper d
  noZombie : ∀ p, (d.proc p).state ≠ .ZOMBIE
  rooted : Rooted d
  trace : d.trace = []

theorem family_reached (strict : Prop) {w : KPool} (hd : FamilyStart d)
    (hcalls : ∀ c, calls c → familyCalls c)
    (hstrict : strict → Provenance d.proc [] ∧ ∀ pid, calls (.kill pid) → pid ≠ 0)
    (hr : Pool.Run Pool.anyStep (kernelStart calls d) w) :
    ∃ g, Monitored familyMay (fun _ => True) w.data (heldOf g) (sleepOf g) ∧
      FamilyRest strict d w.data g ∧ Held w.lock g := by
  refine Monitor.reached (m := familyMonitor strict d) (x := .idle) hd.noSleeper ?_
    (fun _ => family_life_safe hcalls fun hst => (hstrict hst).2) hr
  refine ⟨hd.rooted, ?_, fun hst => ?_, fun _ hb => hb, fun _ => trivial, fun _ _ _ h => h.elim (by simp) (by simp)⟩
  · rw [hd.trace]
    exact Ledger.start hd.noZombie
  · rw [hd.trace]
    exact (hstrict hst).1

/-- Exits and waits, in a state that processes get to. -/
structure Accounted (w : KPool) : Prop where
  /-- The exits of a slot are, in order, those that waits have reported and that of the zombie. -/
  account : ∀ c, exitsOf c w.data.trace = unreported (w.data.proc c) ++ reapsOf c w.data.trace
  /-- The status of an exit is the one that the process has called `exit` with. -/
  status : ∀ later earlier c pid status, w.data.trace = later ++ .exit c pid status :: earlier →
    callOf c earlier = some (.exit status)
  /-- A zombie is reported by its parent, in a call of `wait`. -/
  byParent : ∀ later earlier p c parent pid status,
    w.data.trace = later ++ .reaped p c parent pid status :: earlier →
      parent = some p ∧ ∃ addr, callOf p earlier = some (.wait addr)
  /-- A call of `wait` that reports a child returns its pid, and the status is in memory at the
  address that was given; a call that reports none returns -1. -/
  answers : ∀ later earlier p addr r bytes,
    w.data.trace = later ++ .returned p (.wait addr) r bytes :: earlier →
      (∃ child parent pid status, doneIn p earlier = [.reaped p child parent pid status] ∧
        r = pid.toInt ∧ (addr ≠ 0 → bytes = intBytes status)) ∨
      (doneIn p earlier = [] ∨ doneIn p earlier = [.badAddress p]) ∧ r = -1
  /-- After a `wait` that could not copy out the status, the zombie is there until reported. -/
  kept : ∀ later earlier p c, w.data.trace = later ++ .waitFailed p c :: earlier →
    reapsOf c later = [] → (w.data.proc c).state = .ZOMBIE
  parents : w.lock .wait = none → ∀ c q, (w.data.proc c).parent = some q →
    (w.data.proc q).state ≠ .ZOMBIE ∧ (w.data.proc q).state ≠ .UNUSED
  sleepers : w.lock .wait = none → ∀ p, (w.data.proc p).state = .SLEEPING →
    (w.data.proc p).chan = .proc p →
      ∀ c, (w.data.proc c).parent = some p → (w.data.proc c).state ≠ .ZOMBIE

/-- For any interleaving of forks, exits and waits, also of parents and children at the same time. -/
theorem exits_accounted {w : KPool} (hd : FamilyStart d)
    (hr : Pool.Run Pool.anyStep (kernelStart familyCalls d) w) : Accounted w := by
  obtain ⟨g, hm, hrest, hl⟩ := family_reached False hd (fun _ h => h) (by simp) hr
  obtain ⟨ws, hp⟩ := hr.path
  have hright := calls_right familyCalls_answered hd.trace hp
  refine ⟨hrest.ledger.account, fun later earlier c pid status => hright later earlier _,
    fun later earlier p c parent pid status hsplit => ⟨?_, hright later earlier _ hsplit⟩,
    fun later earlier p addr r bytes hsplit => (hright later earlier _ hsplit).2,
    fun later earlier p c hsplit hlater => hrest.ledger.zombie_of_failed hsplit hlater,
    fun _ c q hc => ?_, fun hfree p hs hc => ?_⟩
  · refine hrest.ledger.byParent p c parent pid status ?_
    rw [hsplit]
    exact List.mem_append_right _ List.mem_cons_self
  · have hlive := hrest.rooted.parents c q hc
    refine ⟨fun h => ?_, fun h => ?_⟩ <;> rw [h] at hlive <;> exact hlive
  · have hnone := (hl.free_iff .wait).mp hfree
    exact hm.may_of_free (.proc p) hnone (.inl ⟨hs, hc⟩)

theorem processes_start {n : ℕ} (hn : 0 < n) : FamilyStart (processes n) := by
  have hparent (p : Fin NPROC) : ((processes n).proc p).parent = none := by
    rw [processes]
    dsimp only
    split <;> rfl
  refine ⟨processes_noSleeper n, fun p => ?_, ⟨fun c q hc => ?_, fun c _ => hparent c, ?_⟩, rfl⟩
  · rw [processes_state]
    split <;> simp
  · rw [hparent c] at hc
    cases hc
  · have hinit : (processes n).initproc.val < n := hn
    rw [processes_state, if_pos hinit]
    trivial

def forkSchedule : List (Fin NPROC × Choice) :=
  [(0, .call .fork)] ++ steps 0 2 ++ [(0, .timer false)] ++ steps 0 5 ++ [(0, .timer false)] ++
    steps 0 8 ++ [(0, .timer false)] ++ steps 0 4 ++ [(0, .timer false)] ++ steps 0 5

/-- The child runs and exits with status 7; its parent waits for it, and gets its pid and, at
address 16, the status. -/
theorem exits_accounted_child : ∃ w : KPool,
    Pool.Run Pool.anyStep (kernelStart familyCalls (processes 1)) w ∧
      reapsOf 1 w.data.trace = [(2, 7)] ∧ .returned 0 (.wait 16) 2 [7, 0, 0, 0] ∈ w.data.trace ∧
      w.lock .wait = none ∧ Accounted w := by
  obtain ⟨w, hr, hw⟩ := Pool.Run.exists_of_exec Pool.anyStep (kernelStart familyCalls (processes 1))
    (steps 0 6 ++ forkSchedule ++ steps 1 6 ++ [(1, .call (.exit 7))] ++ steps 1 391 ++
      [(0, .call (.wait 16))] ++ steps 0 17)
    (fun w => decide (reapsOf 1 w.data.trace = [(2, 7)] ∧
      .returned 0 (.wait 16) 2 [7, 0, 0, 0] ∈ w.data.trace ∧ w.lock .wait = none))
    (by decide +kernel)
  obtain ⟨hreaps, hreturned, hfree⟩ := of_decide_eq_true hw
  exact ⟨w, hr, hreaps, hreturned, hfree, exits_accounted (processes_start (by decide)) hr⟩

/-- Who is marked as killed in `w`, which a run has got to through the states `ws`. -/
structure KillsBlamed (ws : List KPool) (w : KPool) : Prop where
  /-- `kkill` was called with the pid in the lifetime of the process, or it has faulted. -/
  blamed : ∀ p, (w.data.proc p).killed = true → Blamed p (w.data.proc p).pid w.data.trace
  /-- A new process is not marked. -/
  fresh : ∀ p n earlier, w.data.trace = .alloc p n :: earlier → (w.data.proc p).killed = false
  /-- When a `kkill` has returned 0, a process had the pid at some moment of the call. -/
  found : ∀ later earlier p pid bytes,
    w.data.trace = later ++ .returned p (.kill pid) 0 bytes :: earlier →
      ∃ v ∈ ws, InCall p (.kill pid) earlier v.data ∧
        ∃ q, (v.data.proc q).pid = pid ∧ (v.data.proc q).state ≠ .UNUSED

/-- For any interleaving without `kkill(0)`. -/
theorem killed_blamed {ws : List KPool} {w : KPool} (hd : FamilyStart d) (hp : Provenance d.proc [])
    (hr : Pool.Path Pool.anyStep (kernelStart namedCalls d) ws w) : KillsBlamed ws w := by
  have hcalls (c : Call) (hc : namedCalls c) : familyCalls c := by
    cases c with
    | kill pid => rfl
    | _ => exact hc
  have hprov {v : KPool} (hv : Pool.Run Pool.anyStep (kernelStart namedCalls d) v) :
      Provenance v.data.proc v.data.trace := by
    obtain ⟨g, -, hrest, -⟩ := family_reached True hd hcalls
      (fun _ => ⟨hp, fun pid => of_decide_eq_true⟩) hv
    exact hrest.provenance trivial
  have hw := hprov hr.run
  refine ⟨hw.killed, fun p n earlier htrace => ?_, fun later earlier p pid bytes hsplit => ?_⟩
  · by_contra hk
    have hblamed := hw.killed p (Bool.not_eq_false _ ▸ hk)
    -- The lifetime of a new process is empty.
    have hnew : lifetime p w.data.trace = [] := by
      rw [htrace, lifetime]
      simp
    rw [Blamed, hnew] at hblamed
    exact hblamed.elim List.not_mem_nil List.not_mem_nil
  · have hright := calls_right (fun c hc => familyCalls_answered c (hcalls c hc)) hd.trace hr
    obtain ⟨hcall, hanswer⟩ := hright later earlier _ hsplit
    -- The argument is not 0, which is the pid of the unused slots.
    have hpid : pid ≠ 0 := by
      obtain ⟨l, l', hl⟩ := List.append_of_mem (called_of_callOf hcall)
      have hnamed := hright (later ++ .returned p (.kill pid) 0 bytes :: l) l' (.called p (.kill pid))
        (by rw [hsplit, hl, List.append_assoc, List.cons_append])
      exact of_decide_eq_true hnamed
    rcases hanswer with ⟨-, u, ⟨v, hv, rfl⟩, hin, q, hq⟩ | hneg
    · refine ⟨v, hv, hin, q, hq, fun hs => hpid ?_⟩
      rw [← hq]
      exact ((hprov (hr.reached hv)).unused q hs).1
    · exact absurd hneg (by decide)

theorem processes_provenance (n : ℕ) : Provenance (processes n).proc [] := by
  have hk (p : Fin NPROC) : ((processes n).proc p).killed = false := by
    rw [processes]
    dsimp only
    split <;> rfl
  refine ⟨fun p hs => ⟨?_, hk p⟩, fun p h => ?_⟩
  · rw [processes_state] at hs
    rw [processes]
    dsimp only
    split at hs
    · cases hs
    · rw [if_neg ‹_›]
  · rw [hk p] at h
    cases h

/-- Process 0 makes a child and kills it: its `kill` returns 0. -/
theorem killed_blamed_child : ∃ ws w,
    Pool.Path Pool.anyStep (kernelStart namedCalls (processes 1)) ws w ∧
      (w.data.proc 1).killed = true ∧ .returned 0 (.kill 2) 0 [] ∈ w.data.trace ∧ KillsBlamed ws w := by
  obtain ⟨w, hr, hw⟩ := Pool.Run.exists_of_exec Pool.anyStep (kernelStart namedCalls (processes 1))
    (steps 0 6 ++ forkSchedule ++ [(0, .call (.kill 2))] ++ steps 0 2 ++ [(0, .timer false)] ++
      steps 0 5 ++ [(0, .timer false)] ++ steps 0 5)
    (fun w => decide ((w.data.proc 1).killed = true ∧ .returned 0 (.kill 2) 0 [] ∈ w.data.trace))
    (by decide +kernel)
  obtain ⟨hk, hreturned⟩ := of_decide_eq_true hw
  obtain ⟨ws, hp⟩ := hr.path
  exact ⟨ws, w, hp, hk, hreturned,
    killed_blamed (processes_start (by decide)) (processes_provenance 1) hp⟩

instance (p : Fin NPROC) (pid : Int32) (trace : List Event) : Decidable (Blamed p pid trace) :=
  inferInstanceAs (Decidable (_ ∨ _))

/-- No process has the pid 0. -/
def NoZero (_ : Fin NPROC) (_ : Tasks) (_ : LockId → Option (Fin NPROC)) (d' : Tasks) : Prop :=
  ∀ q, (d'.proc q).state ≠ .UNUSED → (d'.proc q).pid ≠ 0

instance (t : Fin NPROC) (d : Tasks) (lock : LockId → Option (Fin NPROC)) (d' : Tasks) :
    Decidable (NoZero t d lock d') :=
  inferInstanceAs (Decidable (∀ q, (d'.proc q).state ≠ .UNUSED → (d'.proc q).pid ≠ 0))

/-- `kkill(0)` finds the pid 0 of an unused slot, marks the slot and returns 0, though after every
step of the run no process has that pid; the process that `kfork` then makes in the slot is killed
from the start. -/
theorem kill_zero_marks_child : ∃ w : KPool,
    Pool.Run NoZero (kernelStart familyCalls (processes 1)) w ∧
      .returned 0 (.kill 0) 0 [] ∈ w.data.trace ∧ (w.data.proc 1).state = .RUNNABLE ∧
      (w.data.proc 1).pid = 2 ∧ (w.data.proc 1).killed = true ∧ ¬Blamed 1 2 w.data.trace := by
  obtain ⟨w, hr, hw⟩ := Pool.Run.exists_of_exec NoZero (kernelStart familyCalls (processes 1))
    (steps 0 6 ++ [(0, .call (.kill 0))] ++ steps 0 2 ++ [(0, .timer false)] ++ steps 0 5 ++
      [(0, .timer false)] ++ steps 0 5 ++ forkSchedule)
    (fun w => decide (.returned 0 (.kill 0) 0 [] ∈ w.data.trace ∧ (w.data.proc 1).state = .RUNNABLE ∧
      (w.data.proc 1).pid = 2 ∧ (w.data.proc 1).killed = true ∧ ¬Blamed 1 2 w.data.trace))
    (by decide +kernel)
  exact ⟨w, hr, of_decide_eq_true hw⟩

/-! Pids. -/

/-- The pids in `w`, which a run has got to through the states `ws`. -/
structure PidsApart (ws : List KPool) (w : KPool) : Prop where
  positive : ∀ p, (w.data.proc p).state ≠ .UNUSED → 0 < (w.data.proc p).pid
  /-- Not even an unused slot has the pid of a process. -/
  distinct : ∀ p q, (w.data.proc p).state ≠ .UNUSED →
    (w.data.proc p).pid = (w.data.proc q).pid → p = q
  /-- A `fork` that has returned has either made no process and returned -1, or returned a positive
  number that was the pid of a slot at some moment of the call. -/
  forked : ∀ later earlier p r bytes, w.data.trace = later ++ .returned p .fork r bytes :: earlier →
    doneIn p earlier = [] ∧ r = -1 ∨ 0 < r ∧ ∃ v ∈ ws, InCall p .fork earlier v.data ∧
      ∃ q, (v.data.proc q).pid.toInt = r

/-- For any interleaving, as long as all pids given out fit an `int`. -/
theorem pids_distinct {base : ℕ} {ws : List KPool} {w : KPool} (hd : FamilyStart d)
    (hp : Pids base d) (hr : Pool.Path Pool.anyStep (kernelStart familyCalls d) ws w)
    (hb : base+allocs w.data.trace < 2^31) : PidsApart ws w := by
  obtain ⟨g, -, hrest, -⟩ := family_reached False hd (fun _ h => h) (by simp) hr.run
  have hw := (hrest.pids base hp).numbered hb
  refine ⟨fun p hs => ?_, fun p q hs => hw.distinct p q (hw.positive p hs),
    fun later earlier p r bytes hsplit => ?_⟩
  · exact Int32.lt_iff_toInt_lt.mpr (hw.positive p hs)
  · obtain ⟨-, hanswer⟩ := calls_right familyCalls_answered hd.trace hr later earlier _ hsplit
    rcases hanswer with ⟨pid, hdone, rfl, u, ⟨v, hv, rfl⟩, hin, q, rfl⟩ | hnone
    · refine .inr ⟨hw.returned p _ ?_, v, hv, hin, q, rfl⟩
      have hmem := mem_of_doneIn (hdone ▸ List.mem_cons_self)
      rw [hsplit]
      exact List.mem_append_right _ (List.mem_cons_of_mem _ hmem)
    · exact .inl hnone

theorem init_pids : Pids 1 (processes 1) := by
  refine ⟨rfl, fun _ => ⟨by decide +kernel, by decide +kernel, by decide +kernel, fun p n hn => ?_⟩⟩
  exact absurd hn List.not_mem_nil

theorem pids_distinct_child : ∃ ws w,
    Pool.Path Pool.anyStep (kernelStart familyCalls (processes 1)) ws w ∧
      1+allocs w.data.trace < 2^31 ∧ .returned 0 .fork 2 [] ∈ w.data.trace ∧ PidsApart ws w := by
  obtain ⟨w, hr, hw⟩ := Pool.Run.exists_of_exec Pool.anyStep
    (kernelStart familyCalls (processes 1)) (steps 0 6 ++ forkSchedule)
    (fun w => decide (1+allocs w.data.trace < 2^31 ∧ .returned 0 .fork 2 [] ∈ w.data.trace))
    (by decide +kernel)
  obtain ⟨hb, hreturned⟩ := of_decide_eq_true hw
  obtain ⟨ws, hp⟩ := hr.path
  exact ⟨ws, w, hp, hb, hreturned, pids_distinct (processes_start (by decide)) init_pids hp hb⟩

/-- Process 0 asks for a new process, and there is no memory for it. -/
def failedFork : List (Fin NPROC × Choice) :=
  steps 0 1 ++ [(0, .call .fork)] ++ steps 0 2 ++ [(0, .timer false)] ++ steps 0 5 ++
    [(0, .timer false)] ++ steps 0 3 ++ [(0, .succeeds false)] ++ steps 0 3

/-- Process 0 is alone and in user space, and `nextpid` is `n`. -/
structure Alone (n : Int32) (w : KPool) : Prop where
  data : ∃ trace, w.data = { (processes 1).setProc 0 (fun pr => { pr with state := .RUNNING }) with
    nextpid := n, trace := trace }
  lock : w.lock = fun _ => none
  code : w.code 0 = (userLoop familyCalls 0).bind fun _ => life familyCalls 0

theorem update_back {α β : Type} [DecidableEq α] {f : α → β} {a : α} {b c : β} (h : f a = c) :
    update (update f a b) a c = f := by
  rw [update_idem, ← h, update_eq_self]

theorem Alone.fork_fails {n : Int32} {w : KPool} (h : Alone n w) :
    ∃ w', w.exec Pool.anyStep failedFork = some w' ∧ Alone (n+1) w' := by
  obtain ⟨d, lock, code⟩ := w
  obtain ⟨⟨trace, hd⟩, hl, hc⟩ := h
  dsimp only at hd hl hc
  subst hd hl
  rw [← update_eq_self 0 code, hc]
  -- The slot and the two locks are as they were before.
  refine ⟨_, rfl, ⟨.returned 0 .fork (-1) [] :: .alloc 1 n :: .called 0 .fork :: trace, ?_⟩, ?_, rfl⟩
  · exact congrArg (fun proc : Fin NPROC → Task => { processes 1 with
      proc := proc
      nextpid := n+1
      trace := .returned 0 .fork (-1) [] :: .alloc 1 n :: .called 0 .fork :: trace }) (update_back rfl)
  · exact (update_back (congrFun (update_back (a := LockId.proc 0) rfl) _)).trans (update_back rfl)

theorem alone_after (k : ℕ) : ∃ w, Pool.Run Pool.anyStep (kernelStart familyCalls (processes 1)) w ∧
    Alone (Int32.ofNat (k+2)) w := by
  induction k with
  | zero =>
    have hstart : ∃ w, (kernelStart familyCalls (processes 1)).exec Pool.anyStep (steps 0 5) =
        some w ∧ Alone 2 w :=
      ⟨_, rfl, ⟨[], rfl⟩, update_back rfl, rfl⟩
    obtain ⟨w, hw, h⟩ := hstart
    exact ⟨w, .of_exec _ .start hw, h⟩
  | succ k ih =>
    obtain ⟨w, hr, h⟩ := ih
    obtain ⟨w', hw', h'⟩ := h.fork_fails
    refine ⟨w', .of_exec _ hr hw', ?_⟩
    rwa [Nat.add_right_comm, Int32.ofNat_add]

/-- After `2^31` forks `fork` returns a negative number, which is the pid of a process. -/
theorem forks_overflow : ∃ w : KPool,
    Pool.Run Pool.anyStep (kernelStart familyCalls (processes 1)) w ∧
      (w.data.proc 1).state = .RUNNABLE ∧ (w.data.proc 1).pid < 0 ∧
      .returned 0 .fork (w.data.proc 1).pid.toInt [] ∈ w.data.trace := by
  obtain ⟨w, hr, h⟩ := alone_after (2^31-2)
  have hfork : ∃ w', w.exec Pool.anyStep (steps 0 1 ++ forkSchedule) = some w' ∧
      (w'.data.proc 1).state = .RUNNABLE ∧ (w'.data.proc 1).pid = Int32.ofNat (2^31-2+2) ∧
      .returned 0 .fork (w'.data.proc 1).pid.toInt [] ∈ w'.data.trace := by
    obtain ⟨d, lock, code⟩ := w
    obtain ⟨⟨trace, hd⟩, hl, hc⟩ := h
    dsimp only at hd hl hc
    subst hd hl
    rw [← update_eq_self 0 code, hc]
    exact ⟨_, rfl, rfl, rfl, List.mem_cons_self⟩
  obtain ⟨w', hw', hs, hpid, hreturned⟩ := hfork
  refine ⟨w', .of_exec _ hr hw', hs, ?_, hreturned⟩
  rw [hpid]
  decide

end Xv6.Threads
