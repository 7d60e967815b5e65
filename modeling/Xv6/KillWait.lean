import Xv6.SleepMonitor

/-! Killing a process that waits. Each wait tests `killed` with the lock of its condition in hand
and then calls `sleep`; a kill that arrives in between marks the process and does not keep it from
sleeping. -/
namespace Xv6.Threads
open Code Function

/-- No process is marked as killed while it holds one of the locks. -/
def KillsOutside (locks : List LockId) (_ : Fin NPROC) (d : Tasks)
    (lock : LockId → Option (Fin NPROC)) (d' : Tasks) : Prop :=
  ∀ v, (d.proc v).killed = false → (d'.proc v).killed = true → ∀ l ∈ locks, lock l ≠ some v

theorem killsOutside_iff (locks : List LockId) (t : Fin NPROC) (d : Tasks)
    (lock : LockId → Option (Fin NPROC)) (d' : Tasks) :
    (∀ l ∈ locks, ∀ v ∈ lock l, (d.proc v).killed = false → (d'.proc v).killed ≠ true) ↔
      KillsOutside locks t d lock d' := by
  constructor
  · intro h v hk hk' l hl hv
    exact h l hl v hv hk hk'
  · intro h l hl v hv hk hk'
    exact h v hk hk' l hl hv

instance (locks : List LockId) (t : Fin NPROC) (d : Tasks) (lock : LockId → Option (Fin NPROC))
    (d' : Tasks) : Decidable (KillsOutside locks t d lock d') :=
  decidable_of_iff _ (killsOutside_iff locks t d lock d')

/-- The locks of the conditions for which processes wait until they are killed. -/
def waitLocks : List LockId := [.wait, .pipe, .ticks, .cons]

/-- What a process knows about itself or a child. -/
inductive KillMode where
  | idle
  /-- It holds `pi->lock` and is not killed. -/
  | unkilled
  /-- It holds the lock of a zombie. -/
  | zombie (pp : Fin NPROC)

structure KillRest (d : Tasks) (g : Modes KillMode) : Prop where
  unkilled : ∀ t, (g t).2.2 = .unkilled → .pipe ∈ (g t).1 ∧ (d.proc t).killed = false
  zombie : ∀ t pp, (g t).2.2 = .zombie pp → .proc pp ∈ (g t).1 ∧ (d.proc pp).state = .ZOMBIE

def killMonitor : Monitor KillMode where
  ok := KillsOutside waitLocks
  may c j d := c.lock ∈ waitLocks → (d.proc j).killed = false
  lax _ := False
  rest := KillRest

variable {d d' : Tasks} {g : Modes KillMode} {t : Fin NPROC} {H : Set LockId} {s : SleepMode}
  {x : KillMode} {β : Type}

namespace KillRest

theorem enter (h : KillRest d g) (hu : x = .unkilled → .pipe ∈ H ∧ (d.proc t).killed = false)
    (hz : ∀ pp, x = .zombie pp → .proc pp ∈ H ∧ (d.proc pp).state = .ZOMBIE) :
    KillRest d (update g t (H, (s, x))) := by
  refine ⟨fun u hux => ?_, fun u pp hux => ?_⟩
  · by_cases hut : u = t
    · subst hut
      rw [update_self] at hux ⊢
      exact hu hux
    · rw [update_of_ne hut] at hux ⊢
      exact h.unkilled u hux
  · by_cases hut : u = t
    · subst hut
      rw [update_self] at hux ⊢
      exact hz pp hux
    · rw [update_of_ne hut] at hux ⊢
      exact h.zombie u pp hux

theorem toIdle (h : KillRest d g) : KillRest d (update g t (H, (s, .idle))) :=
  h.enter (by simp) (by simp)

theorem frame (h : KillRest d g)
    (hk : ∀ u, (g u).2.2 = .unkilled → (d.proc u).killed = false → (d'.proc u).killed = false)
    (hz : ∀ u pp, (g u).2.2 = .zombie pp → (d.proc pp).state = .ZOMBIE →
      (d'.proc pp).state = .ZOMBIE) : KillRest d' g :=
  ⟨fun u hu => ⟨(h.unkilled u hu).1, hk u hu (h.unkilled u hu).2⟩,
    fun u pp hu => ⟨(h.zombie u pp hu).1, hz u pp hu (h.zombie u pp hu).2⟩⟩

end KillRest

theorem resched_killed {q : Fin NPROC} (h : Resched q d d') (j : Fin NPROC) :
    (d'.proc j).killed = (d.proc j).killed := by
  obtain ⟨state, chan, -, -, rfl⟩ := h
  by_cases hj : j = q
  · subst hj
    rw [Tasks.setProc_self]
  · rw [Tasks.setProc_of_ne _ hj]

theorem killMonitor_steady : killMonitor.Steady where
  resched := by
    intro c j q d d' hw hd hc
    rw [resched_killed hd]
    exact hw hc
  woken _ hw := hw
  tick _ hw := hw

theorem killMonitor_quiet (hx : ∀ pp, x ≠ .zombie pp) : killMonitor.Quiet x where
  relock := by
    intro d g t H s hr hgx hH
    refine KillRest.enter hr (fun hu => ?_) fun pp hz => absurd hz (hx pp)
    obtain ⟨hp, hk⟩ := hr.unkilled t (hgx.trans hu)
    exact ⟨(hH .pipe (fun q => (by simp)) (by simp)).mpr hp, hk⟩
  resched := by
    intro d d' g t q hr _ _ hd
    refine KillRest.frame hr (fun u _ hk => ?_) fun u pp _ hz => ?_
    · rwa [resched_killed hd]
    · -- A zombie is not rescheduled.
      obtain ⟨state, chan, hlive, -, rfl⟩ := hd
      rwa [Tasks.setProc_of_ne]
      rintro rfl
      rw [hz] at hlive
      exact hlive
  woken hr _ := KillRest.frame hr (fun _ _ h => h) fun _ _ _ h => h
  tick hr _ := KillRest.frame hr (fun _ _ h => h) fun _ _ _ h => h

theorem killMonitor_detached : killMonitor.Detached where
  memory hw := hw
  boundary _ hw := hw
  restMemory hr := KillRest.frame hr (fun _ _ h => h) fun _ _ _ h => h
  restBoundary _ hr := KillRest.frame hr (fun _ _ h => h) fun _ _ _ h => h

theorem killMonitor_idle : killMonitor.Idle .idle where
  toQuiet := killMonitor_quiet (by simp)
  anyLocks hr _ := hr.toIdle

variable {Q : β → Set LockId × (SleepMode × KillMode) → Prop}

theorem other_safe {f : Choice → Tasks → Option (β × Tasks)}
    (hf : ∀ i d b d', f i d = some (b, d') → d'.proc = d.proc) (hQ : ∀ b, Q b (H, (s, x))) :
    killMonitor.outline.Safe t (H, (s, x)) (access f : KCode β) Q := by
  refine Monitor.access_same fun i d lock g b d' hm _ hr _ hfd _ => ?_
  have hproc := hf i d b d' hfd
  refine ⟨hm.keep (fun j => ?_) fun c j hw hc => ?_, KillRest.frame hr (fun u _ h => ?_)
    fun u pp _ h => ?_, hQ b⟩
  · rw [hproc]
    exact ⟨rfl, fun _ => rfl⟩
  · rw [hproc]
    exact hw hc
  · rwa [hproc]
  · rwa [hproc]

theorem otherWrite_safe {f : Tasks → Tasks} {Q : Unit → Set LockId × (SleepMode × KillMode) → Prop}
    (hf : ∀ d, (f d).proc = d.proc) (hQ : Q () (H, (s, x))) :
    killMonitor.outline.Safe t (H, (s, x)) (write f : KCode Unit) Q := by
  refine other_safe (fun i d b d' h => ?_) fun _ => hQ
  cases h
  exact hf d

theorem otherRead_safe {f : Tasks → β}
    (hQ : ∀ b, Q b (H, (s, x))) : killMonitor.outline.Safe t (H, (s, x)) (read f : KCode β) Q := by
  refine other_safe (fun i d b d' h => ?_) hQ
  cases h
  rfl

theorem otherEvent_safe {f : Tasks → β} {f' : Tasks → Tasks} (hf : ∀ d, (f' d).proc = d.proc)
    (hQ : ∀ b, Q b (H, (s, x))) :
    killMonitor.outline.Safe t (H, (s, x)) (access fun _ d => some (f d, f' d) : KCode β) Q := by
  refine other_safe (fun i d b d' h => ?_) hQ
  cases h
  exact hf d

theorem Tasks.kill_killed (d : Tasks) (q : Fin NPROC) (pid : Int32) (j : Fin NPROC) :
    ((d.kill q pid).2.proc j).killed = (d.proc j).killed ∨
      j = q ∧ ((d.kill q pid).2.proc j).state ≠ .SLEEPING := by
  rw [Tasks.kill]
  split_ifs with hpid
  · by_cases hj : j = q
    · subst hj
      refine .inr ⟨rfl, ?_⟩
      rw [Tasks.hit, Tasks.setProc_self]
      by_cases hs : (d.proc j).state = .SLEEPING
      · exact fun h => absurd ((if_pos hs).symm.trans h) (by simp)
      · exact fun h => hs ((if_neg hs).symm.trans h)
    · rw [Tasks.hit_of_ne _ hj]
      exact .inl rfl
  · exact .inl rfl

theorem killMonitor_kill (pid : Int32) : killMonitor.outline.Keeps t (∅, (.awake, .idle))
    (kkill t pid) := by
  refine Monitor.kkill_safe killMonitor_steady (killMonitor_quiet (by simp))
    fun d lock g q hm hl hr hg hok => ?_
  have hq : .proc q ∈ heldOf g t := by rw [heldOf, hg]; exact Set.mem_insert ..
  -- A process that holds the lock of a condition is not hit.
  have hlocked {j : Fin NPROC} {l : LockId} (hw : l ∈ waitLocks) (hj : l ∈ heldOf g j)
      (hk : (d.proc j).killed = false) : ((d.kill q pid).2.proc j).killed = false := by
    by_contra hk'
    exact hok j hk (Bool.not_eq_false _ ▸ hk') l hw ((hl l j).mpr hj)
  refine ⟨hm.kill fun c j hw hj hc => ?_, KillRest.frame hr (fun u hu hk => ?_)
    fun u pp hu hz => ?_⟩
  · rcases hj with hasleep | hready
    · rcases Tasks.kill_killed d q pid j with hk | ⟨rfl, hs⟩
      · rw [hk]
        exact hw hc
      rcases hasleep with ⟨hsl, -⟩ | hcommits
      · exact absurd hsl hs
      · -- Whoever commits to sleep holds its own lock, which `kkill` has.
        have hn := hm.needs j
        rw [hcommits] at hn
        obtain rfl := hl.unique (hn rfl) hq
        rw [sleepOf, hg] at hcommits
        cases hcommits
    · have hn := hm.needs j
      rw [hready] at hn
      exact hlocked hc (hn rfl) (hw hc)
  · exact hlocked (by simp [waitLocks]) (hr.unkilled u hu).1 hk
  · rcases (Tasks.kill_state d q pid pp).2 with hs | ⟨rfl, hs, -⟩
    · rwa [hs]
    · rw [hz] at hs
      cases hs

/-! The waits. -/

theorem interruptible_safe (chan : Chan) (hlk : chan.lock ∈ H) {α : Type} (r : β) (c : α) :
    killMonitor.outline.Keeps t (H, (.awake, .idle)) (do
      let stop ← killed t
      if stop then pure (.inr r)
      else do
        sleep t chan chan.lock
        pure (.inl c) : KCode (α ⊕ β)) := by
  have hq := killMonitor_idle
  refine .bind (Monitor.killed_then hq.toQuiet (by simp) (fun _ _ _ _ _ => .ret rfl)
    fun d g hm hex hr hg hk => ?_)
  have hs := sleepOf_eq hg
  have hm' : Monitored killMonitor.may killMonitor.lax (d.record (.notKilled t)) (heldOf g)
      (sleepOf g) := hm.keep (fun j => ⟨rfl, fun _ => rfl⟩) fun c j hw => hw
  refine ⟨.ready chan, .idle, hq.toQuiet, by simp, ?_, ?_, .bind ?_⟩
  · refine hm'.getReady hex (by rw [hs]; trivial) ?_ fun _ => hk
    rw [heldOf, hg]
    exact Set.mem_insert_of_mem _ hlk
  · have hr' : KillRest (d.record (.notKilled t)) g := hr.frame (fun _ _ h => h) fun _ _ _ h => h
    exact hr'.toIdle
  · refine (Monitor.sleep_safe chan killMonitor_steady hq (fun d g hm _ _ hg => ?_)
      fun d g H' hr hg => hr.toIdle).mono fun _ a ha => .ret ha
    exact hm.stay hg

/-- A `wakeup` by a process that holds the lock of the channel, and giving the lock back. -/
theorem wake_unlock_safe (chan : Chan) (hx : ∀ pp, x ≠ .zombie pp) (hlk : chan.lock ∉ H)
    {r : β} : killMonitor.outline.Leads t (insert chan.lock H, (.awake, x)) (do
      wakeup t chan
      unlock chan.lock
      pure r : KCode β) (H, (.awake, .idle)) := by
  refine .andThen (Monitor.wakeup_safe (s := .awake) chan killMonitor_steady (killMonitor_quiet hx)
    (.inr ⟨rfl, trivial⟩) (Set.mem_insert ..)) fun _ => ?_
  exact .bind (Monitor.unlock_settled KillMode.idle le_rfl hlk (fun d g hr hg => hr.toIdle) (.ret rfl))

theorem unlock_idle_safe {l : LockId} (hlk : l ∉ H) {r : β} :
    killMonitor.outline.Leads t (insert l H, (.awake, x)) (do
      unlock l
      pure r : KCode β) (H, (.awake, .idle)) :=
  .bind (Monitor.unlock_settled KillMode.idle trivial hlk (fun _ _ hr _ => hr.toIdle) (.ret rfl))

theorem sysPause_unkilled (n : ℤ) : killMonitor.outline.Keeps t (∅, (.awake, .idle))
    (sysPause t n) := by
  refine .bind (killMonitor_idle.lock fun hH => .bind (otherRead_safe fun ticks0 =>
    .andThen (.loop_same fun _ => ?_) fun r => unlock_idle_safe hH))
  refine .bind (otherEvent_safe (fun _ => rfl) fun wait => ?_)
  cases wait with
  | true => exact interruptible_safe .ticks (Set.mem_insert ..) _ _
  | false => exact .ret rfl

theorem consoleread_unkilled (addr : UInt64) (n : ℤ) :
    killMonitor.outline.Keeps t (∅, (.awake, .idle)) (consoleread t addr n) := by
  refine .bind (killMonitor_idle.lock fun hH => .andThen (.loop_same fun k => ?_) fun r =>
    unlock_idle_safe hH)
  by_cases hk : 0 < k
  · rw [if_pos hk]
    refine .andThen (.loop_same fun _ => ?_) fun ready => ?_
    · refine .bind (otherEvent_safe (fun _ => rfl) fun wait => ?_)
      cases wait with
      | true => exact interruptible_safe .cons (Set.mem_insert ..) _ _
      | false => exact .ret rfl
    cases ready with
    | false => exact .ret rfl
    | true =>
      refine .bind (otherEvent_safe (fun _ => rfl) fun c => ?_)
      by_cases hc : c = ctrlD
      · rw [if_pos hc]
        split_ifs with hn
        · exact .bind (otherWrite_safe (fun _ => rfl) (.ret rfl))
        · exact .ret rfl
      · rw [if_neg hc]
        refine .bind (Monitor.copyout_safe killMonitor_detached fun ok => ?_)
        cases ok with
        | false => exact .ret rfl
        | true =>
          by_cases hl : c = newline
          · rw [if_pos hl]
            exact .ret rfl
          · rw [if_neg hl]
            exact .ret rfl
  · rw [if_neg hk]
    exact .ret rfl

theorem consoleintr_unkilled (c : UInt8) : killMonitor.outline.Keeps t (∅, (.awake, .idle))
    (consoleintr t c) := by
  refine .bind (killMonitor_idle.lock fun hH => .bind (otherEvent_safe (fun _ => rfl) fun line => ?_))
  cases line with
  | true => exact wake_unlock_safe (x := .idle) .cons (by simp) hH
  | false => exact unlock_idle_safe hH

theorem pipeclose_unkilled (writable : Bool) : killMonitor.outline.Keeps t (∅, (.awake, .idle))
    (pipeclose t writable) := by
  refine .bind (killMonitor_idle.lock fun hH => ?_)
  cases writable with
  | true =>
    exact .bind (otherWrite_safe (fun _ => rfl) (wake_unlock_safe (x := .idle) .nread (by simp) hH))
  | false =>
    exact .bind (otherWrite_safe (fun _ => rfl) (wake_unlock_safe (x := .idle) .nwrite (by simp) hH))

theorem piperead_unkilled (addr : UInt64) (n : Int32) :
    killMonitor.outline.Keeps t (∅, (.awake, .idle)) (piperead t addr n) := by
  refine .bind (killMonitor_idle.lock fun hH => .andThen (.loop_same fun _ => ?_) fun ready => ?_)
  · refine .bind (otherEvent_safe (fun _ => rfl) fun wait => ?_)
    cases wait with
    | true => exact interruptible_safe .nread (Set.mem_insert ..) _ _
    | false => exact .ret rfl
  cases ready with
  | false => exact unlock_idle_safe hH
  | true =>
    refine .andThen (.loop_same fun i => ?_) fun r => ?_
    · by_cases hi : (i:ℤ) < n.toInt
      · rw [if_pos hi]
        refine .bind (other_safe (fun _ d b d' h => ?_) fun ch => ?_)
        · split_ifs at h with he
          · cases h
            rfl
          · cases h
            rfl
        cases ch with
        | none => exact .ret rfl
        | some ch =>
          refine .bind (Monitor.copyout_safe killMonitor_detached fun ok => ?_)
          cases ok with
          | true => exact .ret rfl
          | false => exact .ret rfl
      · rw [if_neg hi]
        exact .ret rfl
    · exact wake_unlock_safe (x := .idle) .nwrite (by simp) hH

/-- `pipewrite` wakes the readers between its test of `killed` and its `sleep`, so that it has to
remember the outcome of the test. -/
theorem pipewrite_unkilled (addr : UInt64) (n : Int32) :
    killMonitor.outline.Keeps t (∅, (.awake, .idle)) (pipewrite t addr n) := by
  refine .bind (killMonitor_idle.lock fun hH => .bind ?_)
  refine (Outline.Safe.loop (fun _ a => ∃ x : KillMode, (∀ pp, x ≠ .zombie pp) ∧
      a = (insert .pipe ∅, (.awake, x)))
    (Q := fun _ a => ∃ x : KillMode, (∀ pp, x ≠ .zombie pp) ∧ a = (insert .pipe ∅, (.awake, x)))
    (fun i a ha => ?_) ⟨.idle, by simp, rfl⟩).mono fun r a ha => ?_
  · obtain ⟨x, hx, rfl⟩ := ha
    split_ifs with hi
    · refine .bind (otherRead_safe fun readopen => ?_)
      cases readopen with
      | false => exact .ret ⟨x, hx, rfl⟩
      | true =>
        refine .bind (Monitor.killed_safe (killMonitor_quiet hx) (by simp) (fun _ _ _ hw => hw)
          (fun _ _ _ _ _ => .ret ⟨x, hx, rfl⟩) fun d g hr hg hk => ?_)
        refine ⟨.unkilled, killMonitor_quiet (by simp), ?_, ?_⟩
        · have hr' : KillRest (d.record (.notKilled t)) g :=
            KillRest.frame hr (fun _ _ h => h) fun _ _ _ h => h
          exact hr'.enter (fun _ => ⟨Set.mem_insert_of_mem _ (Set.mem_insert ..), hk⟩) (by simp)
        refine .bind (otherEvent_safe (fun _ => rfl) fun full => ?_)
        cases full with
        | true =>
          refine .andThen (Monitor.wakeup_safe (s := .awake) .nread killMonitor_steady
            (killMonitor_quiet (x := .unkilled) (by simp)) (.inr ⟨rfl, trivial⟩)
            (Set.mem_insert ..)) fun _ => ?_
          refine .bind ((Monitor.sleep_safe .nwrite killMonitor_steady killMonitor_idle
            (fun d g hm hex hr hg => ?_) fun d g H' hr hg => hr.toIdle).mono fun _ a ha =>
              .ret ⟨.idle, by simp, ha⟩)
          refine hm.getReady hex (by rw [sleepOf, hg]; exact le_rfl) ?_ fun _ => ?_
          · rw [heldOf, hg]
            exact Set.mem_insert ..
          · exact (hr.unkilled t (by rw [hg])).2
        | false =>
          refine .bind (Monitor.copyin_safe fun ch => ?_)
          cases ch with
          | none => exact .ret ⟨.unkilled, by simp, rfl⟩
          | some ch => exact .bind (otherWrite_safe (fun _ => rfl) (.ret ⟨.unkilled, by simp, rfl⟩))
    · exact .ret ⟨x, hx, rfl⟩
  · obtain ⟨x, hx, rfl⟩ := ha
    cases r with
    | none => exact unlock_idle_safe hH
    | some i => exact wake_unlock_safe .nread hx hH

theorem reap_unkilled {pp : Fin NPROC} (e : Tasks → Event) :
    killMonitor.outline.Safe t (H, (.awake, .zombie pp))
      (write fun d => (d.record (e d)).freeproc pp : KCode Unit)
      fun _ a => a.1 = H ∧ a.2.1 = .awake := by
  refine Monitor.write_safe fun d lock g hm hl hr hg _ => ⟨.awake, .idle, ?_, ?_, rfl, rfl⟩
  all_goals
    have hothers (j : Fin NPROC) (hj : j ≠ pp) :
        (((d.record (e d)).freeproc pp).proc j) = d.proc j := Tasks.setProc_of_ne _ hj _
    have hfreed : (((d.record (e d)).freeproc pp).proc pp).state = .UNUSED ∧
        (((d.record (e d)).freeproc pp).proc pp).killed = false := by
      rw [Tasks.freeproc, Tasks.setProc_self]
      exact ⟨rfl, rfl⟩
    have hkilled (j : Fin NPROC) (hk : (d.proc j).killed = false) :
        (((d.record (e d)).freeproc pp).proc j).killed = false := by
      by_cases hj : j = pp
      · rw [hj]
        exact hfreed.2
      · rwa [hothers j hj]
    obtain ⟨hpp, hz⟩ := hr.zombie t pp (by rw [hg])
  · exact Monitored.stay (hm.rouse hothers (by rw [hz]; simp) (by rw [hfreed.1]; simp)
      fun c j hw hc => hkilled j (hw hc)) hg
  · have hr' : KillRest d (update g t (H, (.awake, .idle))) := hr.toIdle
    refine hr'.frame (fun u _ => hkilled u) fun u q hu hq => ?_
    have hut : u ≠ t := by
      rintro rfl
      rw [update_self] at hu
      cases hu
    -- Nobody else knows about the slot, for want of its lock.
    rw [update_of_ne hut] at hu
    rw [hothers q]
    · exact hq
    · rintro rfl
      exact hut (hl.unique (hr.zombie u q hu).1 hpp)

theorem kwaitScan_unkilled (addr : UInt64) : killMonitor.outline.Keeps t (H, (.awake, .idle))
    (kwaitScan t addr) := by
  refine Outline.Safe.loop_same fun k => ?_
  by_cases hk : k.1 < NPROC
  · rw [dif_pos hk]
    refine .bind (otherRead_safe fun child => ?_)
    cases child with
    | false => exact .ret rfl
    | true =>
      have hq := killMonitor_idle.toQuiet
      refine .bind (hq.lock_proc fun hH => .bind ?_)
      refine Monitor.read_safe fun d lock g hm hl hr hg => ?_
      by_cases hz : (d.proc ⟨k.1, hk⟩).state = .ZOMBIE
      · refine ⟨.zombie ⟨k.1, hk⟩, KillRest.enter hr (by simp) fun pp hpp => ?_, ?_⟩
        · obtain rfl := KillMode.zombie.inj hpp
          exact ⟨Set.mem_insert .., hz⟩
        rw [if_pos hz]
        refine .bind (otherRead_safe fun pid => .bind (otherRead_safe fun status => ?_))
        have hfound (ok : Bool) : killMonitor.outline.Safe t
            (insert (.proc ⟨k.1, hk⟩) H, (.awake, .zombie ⟨k.1, hk⟩)) (if ok then do
              write fun d => (d.record (.reaped t ⟨k.1, hk⟩ (d.proc ⟨k.1, hk⟩).parent pid
                status)).freeproc ⟨k.1, hk⟩
              unlock (.proc ⟨k.1, hk⟩)
              pure (.inr (.reaped pid))
            else do
              write fun d => d.record (.waitFailed t ⟨k.1, hk⟩)
              unlock (.proc ⟨k.1, hk⟩)
              pure (.inr .copyFailed) : KCode ((ℕ × Bool) ⊕ Scan))
            fun _ a => a = (H, (.awake, .idle)) := by
          cases ok with
          | true =>
            refine .bind ((reap_unkilled _).mono fun _ a ha => ?_)
            obtain ⟨H', s', x'⟩ := a
            obtain ⟨rfl, rfl⟩ := ha
            exact unlock_idle_safe hH
          | false => exact .bind (otherWrite_safe (fun _ => rfl) (unlock_idle_safe hH))
        by_cases ha : addr ≠ 0
        · rw [if_pos ha]
          exact .bind (Monitor.copyout_safe killMonitor_detached hfound)
        · rw [if_neg ha]
          exact hfound true
      · refine ⟨.idle, hr.toIdle, ?_⟩
        rw [if_neg hz]
        exact unlock_idle_safe hH
  · rw [dif_neg hk]
    exact .ret rfl

theorem kwait_unkilled (addr : UInt64) : killMonitor.outline.Keeps t (∅, (.awake, .idle))
    (kwait t addr) := by
  refine .bind (killMonitor_idle.lock fun hH => .andThen (.loop_same fun _ => ?_) fun r =>
    unlock_idle_safe hH)
  refine .bind (otherWrite_safe (fun _ => rfl) (.andThen (kwaitScan_unkilled addr) fun scan => ?_))
  cases scan with
  | reaped | copyFailed => exact .ret rfl
  | kids havekids =>
    cases havekids with
    | true => exact interruptible_safe (.proc t) (Set.mem_insert ..) _ _
    | false => exact .ret rfl

def killCalls : Call → Bool
  | .wait _ | .piperead .. | .pipewrite .. | .pipeclose _ | .consoleread .. | .consoleintr _
  | .pause _ | .kill _ | .yield | .clockintr => true
  | _ => false

theorem kill_life_safe : killMonitor.outline.Safe t (∅, (.off, .idle)) (life killCalls t)
    fun _ _ => True := by
  have hq := killMonitor_idle.toQuiet
  refine Monitor.life_safe killMonitor_steady hq killMonitor_detached (fun c hc _ => ?_) fun status hc => ?_
  · cases c with
    | wait addr => exact .andThen (kwait_unkilled addr) fun _ => .ret rfl
    | piperead addr n => exact .andThen (piperead_unkilled addr n) fun _ => .ret rfl
    | pipewrite addr n => exact .andThen (pipewrite_unkilled addr n) fun _ => .ret rfl
    | pipeclose writable => exact .andThen (pipeclose_unkilled writable) fun _ => .ret rfl
    | consoleread addr n => exact .andThen (consoleread_unkilled addr n) fun _ => .ret rfl
    | consoleintr c => exact .andThen (consoleintr_unkilled c) fun _ => .ret rfl
    | pause n => exact .andThen (sysPause_unkilled n) fun _ => .ret rfl
    | kill pid => exact .andThen (killMonitor_kill pid) fun _ => .ret rfl
    | yield => exact .andThen (Monitor.yield_safe killMonitor_steady hq) fun _ => .ret rfl
    | clockintr => exact .andThen (Monitor.clockintr_safe killMonitor_steady hq) fun _ => .ret rfl
    | _ => cases hc
  · cases hc

/-- In every run in which no process is killed while it holds the lock of what it waits for,
nobody who is killed sleeps in one of the waits that a kill is to end. -/
theorem killed_not_sleeping {w : KPool} (hd : NoSleeper d)
    (hr : Pool.Run (KillsOutside waitLocks) (kernelStart killCalls d) w) (p : Fin NPROC)
    (hs : (w.data.proc p).state = .SLEEPING) (hc : (w.data.proc p).chan.lock ∈ waitLocks) :
    (w.data.proc p).killed = false := by
  obtain ⟨g, hm, -, -⟩ := Monitor.reached (m := killMonitor) (x := .idle) hd ⟨by simp, by simp⟩
    (fun _ => kill_life_safe) hr
  exact hm.may_of_strict id (.inl ⟨hs, rfl⟩) hc

/-- Process 0 pauses and process 2 reads from the empty pipe. Process 1 kills process 0, which is
asleep and comes back with -1, and process 2 sleeps on. -/
theorem killed_not_sleeping_pause : ∃ w : KPool,
    Pool.Run (KillsOutside waitLocks) (kernelStart killCalls (processes 3)) w ∧
      (w.data.proc 0).killed = true ∧ .returned 0 (.pause 5) (-1) [] ∈ w.data.trace ∧
      (w.data.proc 2).state = .SLEEPING ∧ (w.data.proc 2).chan = .nread ∧
      (w.data.proc 2).killed = false := by
  obtain ⟨w, hr, hw⟩ := Pool.Run.exists_of_exec (KillsOutside waitLocks)
    (kernelStart killCalls (processes 3))
    (steps 0 6 ++ [(0, .call (.pause 5))] ++ steps 0 12 ++
      steps 2 6 ++ [(2, .call (.piperead 0 1))] ++ steps 2 11 ++
      steps 1 6 ++ [(1, .call (.kill 1))] ++ steps 1 2 ++ [(1, .timer false)] ++ steps 1 5 ++
      steps 0 6 ++ [(0, .timer false)] ++ steps 0 9)
    (fun w => decide ((w.data.proc 0).killed = true ∧
      .returned 0 (.pause 5) (-1) [] ∈ w.data.trace ∧
      (w.data.proc 2).state = .SLEEPING ∧ (w.data.proc 2).chan = .nread)) (by decide +kernel)
  obtain ⟨hkilled, hback, hs, hc⟩ := of_decide_eq_true hw
  refine ⟨w, hr, hkilled, hback, hs, hc, killed_not_sleeping (processes_noSleeper 3) hr 2 hs ?_⟩
  rw [hc]
  decide

/-- A kill that comes after the test of `killed` and before `sleep` takes `p->lock`: process 0
calls `pause` and is told that it is not killed, process 1 kills it while it runs, and process 0
goes to sleep with `killed` set. -/
theorem killed_process_sleeps : ∃ w : KPool,
    Pool.Run Pool.anyStep (kernelStart killCalls (processes 2)) w ∧
      (w.data.proc 0).state = .SLEEPING ∧ (w.data.proc 0).chan = .ticks ∧
      (w.data.proc 0).killed = true ∧ w.lock (.proc 0) = none := by
  obtain ⟨w, hr, hw⟩ := Pool.Run.exists_of_exec Pool.anyStep (kernelStart killCalls (processes 2))
    (steps 0 6 ++ [(0, .call (.pause 1))] ++ steps 0 7 ++
      steps 1 6 ++ [(1, .call (.kill 1))] ++ steps 1 2 ++ [(1, .timer false)] ++ steps 1 4 ++
      steps 0 5)
    (fun w => decide ((w.data.proc 0).state = .SLEEPING ∧ (w.data.proc 0).chan = .ticks ∧
      (w.data.proc 0).killed = true ∧ w.lock (.proc 0) = none)) (by decide +kernel)
  exact ⟨w, hr, of_decide_eq_true hw⟩

end Xv6.Threads
