import Xv6.SleepMonitor

/-! No `wakeup` comes to its end between a test of the condition and the sleep that follows it. -/
namespace Xv6.Threads
open Code

/-- Process `p` has tested the condition of the channel, and no `wakeup` of the channel has come
to its end since. The trace has the latest event first. -/
def Unwoken (p : Fin NPROC) (chan : Chan) (trace : List Event) : Prop :=
  ∃ since before, trace = since ++ .tested p chan :: before ∧ .woken chan ∉ since

theorem Unwoken.cons {p : Fin NPROC} {chan : Chan} {trace : List Event} {e : Event}
    (h : Unwoken p chan trace) (he : e ≠ .woken chan) : Unwoken p chan (e :: trace) := by
  obtain ⟨since, before, rfl, hs⟩ := h
  refine ⟨e :: since, before, rfl, fun hmem => ?_⟩
  rcases List.mem_cons.mp hmem with hmem | hmem
  · exact he hmem.symm
  · exact hs hmem

/-- Nobody sleeps on a channel that has been woken since the test. -/
def unwokenMonitor : Monitor Unit where
  ok := Pool.anyStep
  may chan p d := Unwoken p chan d.trace
  lax _ := False
  rest _ _ := True

variable {t : Fin NPROC}

theorem unwokenMonitor_steady : unwokenMonitor.Steady where
  resched := by
    rintro c j q d _ hw ⟨state, chan, -, -, rfl⟩
    exact hw
  woken hc hw := hw.cons fun h => hc (Event.woken.inj h).symm
  tick _ hw := hw

theorem unwokenMonitor_idle : unwokenMonitor.Idle () where
  relock _ _ _ := trivial
  resched _ _ _ _ := trivial
  woken _ _ := trivial
  tick _ _ := trivial
  anyLocks _ _ := trivial

theorem unwokenMonitor_detached : unwokenMonitor.Detached where
  memory hw := hw
  boundary he hw := hw.cons fun h => by rw [h] at he; cases he
  restMemory _ := trivial
  restBoundary _ _ := trivial

/-- The calls by which processes wait, wake, kill and yield. -/
def sleepCalls : Call → Bool
  | .waitFor .. | .signal .. | .kill _ | .yield | .clockintr => true
  | _ => false

theorem waitFor_safe (n k : ℕ) : unwokenMonitor.outline.Keeps t (∅, (.awake, ())) (waitFor t n k) := by
  have hq := unwokenMonitor_idle
  refine .bind (hq.lock fun hH => .andThen (.loop_same fun _ => ?_) fun _ =>
    hq.unlock trivial hH rfl)
  refine .bind (Monitor.access_safe fun i d lock g b d' hm hl hr hg hf _ => ?_)
  have hd' : d' = d.record (.tested t (.other n k)) := by
    cases i with
    | succeeds ok => exact (Prod.mk.inj (Option.some.inj hf)).2.symm
    | _ => cases hf
  have hm' : Monitored unwokenMonitor.may unwokenMonitor.lax d' (heldOf g) (sleepOf g) :=
    hm.keep (fun j => by rw [hd']; exact ⟨rfl, fun _ => rfl⟩) fun c j hw => by
      rw [hd']
      exact hw.cons (by simp)
  have hs := sleepOf_eq hg
  cases b with
  | true => exact ⟨.awake, (), hm'.stay hg, trivial, .ret rfl⟩
  | false =>
    -- The test is the latest event.
    have hw : Unwoken t (.other n k) d'.trace := ⟨[], d.trace, by rw [hd']; rfl, by simp⟩
    refine ⟨.ready (.other n k), (), hm'.getReady (exclusive_of_held hl) (by rw [hs]; trivial)
      ?_ hw, trivial, .bind ((Monitor.sleep_safe (.other n k) unwokenMonitor_steady hq
        (fun d g hm _ _ hg => hm.stay hg) fun _ _ _ _ _ => trivial).mono fun _ a ha => .ret ha)⟩
    rw [heldOf, hg]
    exact Set.mem_insert ..

theorem signal_safe (n k : ℕ) : unwokenMonitor.outline.Keeps t (∅, (.awake, ())) (signal t n k) := by
  have hq := unwokenMonitor_idle
  exact .bind (hq.lock_owe (.other n k) fun hH => .andThen (Monitor.wakeup_safe (.other n k)
    unwokenMonitor_steady hq.toQuiet (.inl rfl) (Set.mem_insert ..)) fun _ =>
      hq.unlock le_rfl hH rfl)

theorem unwokenMonitor_kill (pid : Int32) : unwokenMonitor.outline.Keeps t (∅, (.awake, ()))
    (kkill t pid) := by
  refine Monitor.kkill_safe unwokenMonitor_steady unwokenMonitor_idle.toQuiet
    fun d lock g q hm _ _ _ _ => ⟨hm.kill fun c j hw _ => ?_, trivial⟩
  rw [Tasks.kill]
  split
  all_goals exact hw.cons (by simp)

/-- In every state that processes get to which wait and wake under the locks of their channels,
whoever is `SLEEPING` on a channel has tested its condition after the last `wakeup` of the
channel has come to its end. -/
theorem sleeper_not_woken {d : Tasks} (hd : NoSleeper d) {w : KPool}
    (hr : Pool.Run Pool.anyStep (kernelStart sleepCalls d) w) (p : Fin NPROC)
    (hp : (w.data.proc p).state = .SLEEPING) :
    Unwoken p (w.data.proc p).chan w.data.trace := by
  have hs := unwokenMonitor_steady
  have hq := unwokenMonitor_idle
  have hlife (t : Fin NPROC) : unwokenMonitor.outline.Safe t (∅, (.off, ())) (life sleepCalls t)
      fun _ _ => True := by
    refine Monitor.life_safe hs hq.toQuiet unwokenMonitor_detached (fun c hc _ => ?_) fun status hc => ?_
    · cases c with
      | waitFor n k => exact .andThen (waitFor_safe n k) fun _ => .ret rfl
      | signal n k => exact .andThen (signal_safe n k) fun _ => .ret rfl
      | kill pid => exact .andThen (unwokenMonitor_kill pid) fun _ => .ret rfl
      | yield => exact .andThen (Monitor.yield_safe hs hq.toQuiet) fun _ => .ret rfl
      | clockintr => exact .andThen (Monitor.clockintr_safe hs hq.toQuiet) fun _ => .ret rfl
      | _ => cases hc
    · cases hc
  obtain ⟨g, hm, -, -⟩ := Monitor.reached (m := unwokenMonitor) hd trivial hlife hr
  exact hm.may_of_strict id (.inl ⟨hp, rfl⟩)

/-- Process 0 waits, is woken by process 1, finds that its condition does not hold and waits again.
Process 2 waits on the same channel until process 1 kills it. -/
theorem sleeper_not_woken_waitFor : ∃ w : KPool,
    Pool.Run Pool.anyStep (kernelStart sleepCalls (processes 3)) w ∧
      (w.data.proc 0).state = .SLEEPING ∧ .woken (.other 0 0) ∈ w.data.trace ∧
      (w.data.proc 2).state = .RUNNABLE ∧ (w.data.proc 2).killed = true ∧
      Unwoken 0 (w.data.proc 0).chan w.data.trace := by
  let next : List (Fin NPROC × Choice) := (1, .timer false) :: steps 1 5
  obtain ⟨w, hr, hw⟩ := Pool.Run.exists_of_exec Pool.anyStep (kernelStart sleepCalls (processes 3))
    ( steps 0 6 ++ [(0, .call (.waitFor 0 0))] ++ steps 0 2 ++ [(0, .succeeds false)] ++ steps 0 5 ++
      steps 1 6 ++ [(1, .call (.signal 0 0))] ++ steps 1 258 ++
      steps 0 6 ++ [(0, .timer false)] ++ steps 0 2 ++ [(0, .succeeds false)] ++ steps 0 5 ++
      steps 2 6 ++ [(2, .call (.waitFor 0 0))] ++ steps 2 2 ++ [(2, .succeeds false)] ++ steps 2 5 ++
      -- `kkill` finds the pid in the third slot.
      [(1, .call (.kill 3))] ++ steps 1 2 ++ next ++ next ++ next)
    (fun w => decide ((w.data.proc 0).state = .SLEEPING ∧ .woken (.other 0 0) ∈ w.data.trace ∧
      (w.data.proc 2).state = .RUNNABLE ∧ (w.data.proc 2).killed = true)) (by decide +kernel)
  obtain ⟨hsleep, hwoken, hrunnable, hkilled⟩ := of_decide_eq_true hw
  exact ⟨w, hr, hsleep, hwoken, hrunnable, hkilled,
    sleeper_not_woken (processes_noSleeper 3) hr 0 hsleep⟩

end Xv6.Threads
