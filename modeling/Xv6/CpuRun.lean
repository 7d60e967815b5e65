import Xv6.CpuInvariant

/-! Every step of a CPU keeps the invariant. -/

namespace Xv6.Cpus
open Function
namespace Machine

variable {C : Type} [DecidableEq C] {m m' m1 : Machine C} {c : C} {p q i : Fin NPROC} {x : ProcPoint}
  {np : Option (Fin NPROC)} {choice : Choice} {k : ℕ}

/-! The scheduler. -/

section
omit [DecidableEq C]

theorem acquire_locks (hfree : (m.proc i).lock = none) (hl : Holds m c none) :
    Holds (m.setLock i (some c)) c (some i) ∧ OtherLocks m (m.setLock i (some c)) c := by
  refine ⟨fun j => ?_, fun j c' hc' => ?_⟩ <;> rw [lock_setLock] <;> by_cases hj : j = i
  · rw [if_pos hj, hj]
    exact iff_of_true rfl rfl
  · rw [if_neg hj, hl j]
    exact iff_of_false (by simp) fun he => hj (Option.some.inj he).symm
  · rw [if_pos hj, hj, hfree]
    exact iff_of_false (fun he => hc' (Option.some.inj he).symm) (by simp)
  · rw [if_neg hj]

theorem release_locks (hl : Holds m c (some i)) :
    Holds (m.setLock i none) c none ∧ OtherLocks m (m.setLock i none) c := by
  refine ⟨fun j => ?_, fun j c' hc' => ?_⟩ <;> rw [lock_setLock] <;> by_cases hj : j = i
  · rw [if_pos hj]
    exact iff_of_false (by simp) (by simp)
  · rw [if_neg hj, hl j]
    exact iff_of_false (fun he => hj (Option.some.inj he).symm) (by simp)
  · rw [hj, (hl i).mpr rfl]
    exact iff_of_false (by simp) fun he => hc' (Option.some.inj he).symm
  · rw [if_neg hj]

end

theorem dispatch_inv (h : Inv m) (hp : (m.cpu c).proc = none)
    (hl : Holds m c (some i)) (hs : (m.proc i).state = .RUNNABLE)
    (hm' : m' = ((m.setState i .RUNNING).setCpu c fun cp =>
      { cp with proc := some i, point := .back i }).callSwtch c (.scheduler c) (.process i)) :
    Inv m' := by
  have hcpu : m'.cpu c =
      { m.cpu c with
        control := .swtch (.scheduler c) (.process i) 0
        proc := some i
        point := .back i
        switches := (m.cpu c).switches+1
        regs := fun _ => ⟨.scheduler c, (m.cpu c).switches+1⟩ } := by
    rw [hm', callSwtch, setCpu_cpu_self, switches, setCpu_cpu_self, setCpu_cpu_self]
    rfl
  have hproc : m'.proc = (m.setState i .RUNNING).proc := by rw [hm']; rfl
  have hself : m'.proc i = { m.proc i with state := .RUNNING } := by
    rw [hproc, setState, setProc_self]
  have hother (j : Fin NPROC) (hj : j ≠ i) : m'.proc j = m.proc j := by
    rw [hproc, setState, setProc_of_ne m hj]
  have hlock := field_of_others Proc.lock (by rw [hself]) hother
  have hidle (j : Fin NPROC) : (m.cpu c).proc ≠ some j := by rw [hp]; simp
  have hnone := h.not_engaged ((hl i).mpr rfl) (by rw [hs]; simp) (hidle i)
  obtain ⟨hsaved, hexp⟩ := h.parked i (by rw [hs]; trivial) hnone
  refine h.advance (c := c) (fun c' hc' => ?_) (fun j => ?_) ?_ (fun j => ?_)
    (fun j c' _ => by rw [hlock j]) (fun j hj => .inr ?_) (fun j hj => ?_)
    (fun j hj hne => .inl ⟨?_, hidle j⟩) ?_
  · rw [hm', callSwtch, setCpu_cpu_of_ne _ hc', setCpu_cpu_of_ne _ hc', setCpu_cpu_of_ne _ hc']
    rfl
  · by_cases hj : j = i
    · rw [hj]
      exact .inr fun c' _ => hnone c'
    · exact .inl (.of_eq (hother j hj))
  · refine .enters i 0 (by rw [hcpu]) (by rw [hcpu]) (by rw [hcpu]) (by rw [hself])
      (by rw [hself]; exact hexp)
      (saved_proc (by rw [hself]) (by rw [hself]) hsaved)
      ⟨by omega, fun r hr => absurd hr (by omega), fun r => ?_⟩
    rw [if_neg (by omega), switches, hcpu]
  · have hheld : m'.held c = some i := by rw [held, hcpu]
    rw [hheld, hlock, hl]
  · rw [hcpu] at hj
    rw [← Option.some.inj hj]
    exact hnone
  · by_cases hji : j = i
    · rw [hji, hcpu]
      exact .inl rfl
    · rw [hother j hji] at hj
      exact .inr ⟨hj, hidle j⟩
  · refine .of_eq (hother j fun hji => hne ?_)
    rw [hcpu, hji]
  · refine h.makers.keep (fun q hq => ?_) fun p q =>
      makesOnly_of_point (field_of_others Proc.point (by rw [hself]) hother p)
    refine Same.ready (.of_eq (hother q ?_)) hq
    rintro rfl
    rw [hs] at hq
    cases hq

theorem back_inv (h : Inv m) (hc : (m.cpu c).control = .runs (.scheduler c))
    (hx : (m.cpu c).point = .back i) :
    Inv (m.setCpu c fun cp => { cp with proc := none, point := .done i }) := by
  obtain ⟨-, hstack, ⟨-, hno⟩ | ⟨j, hp, hj, hgone, hexp, hsaved⟩⟩ := (h.cpus c).of_scheduler hc
  · exact absurd hx (hno i)
  refine h.advance (c := c) (fun c' hc' => setCpu_cpu_of_ne _ hc' _) (fun k => .inl (.of_eq rfl))
    (.idle ?_ ?_ ?_ ?_) (fun k => ?_) (fun k c' _ => Iff.rfl) (fun k hk => ?_) (fun k hk => ?_)
    (fun k hk _ => ?_) (h.makers.same fun k => .of_eq rfl)
  · rw [setCpu_cpu_self]
    exact hc
  · rw [setCpu_cpu_self]
  · simp
  · rw [stack, setCpu_cpu_self]
    exact hstack
  · rw [setCpu_proc, h.locks c k, held, held, setCpu_cpu_self, hc]
    rw [hx]
    rfl
  · rw [setCpu_cpu_self] at hk
    cases hk
  · refine .inr ⟨hk, ?_⟩
    rw [hp]
    intro he
    have hk : (m.proc k).state = .RUNNING := hk
    rw [← Option.some.inj he] at hk
    rw [hk] at hgone
    exact hgone
  · by_cases hkj : k = j
    · rw [hkj]
      exact .inr ⟨hsaved, hexp⟩
    · exact .inl ⟨.of_eq rfl, ne_of_proc hp hkj⟩

theorem scheduler_inv {x : SchedPoint} (h : Inv m)
    (hc : (m.cpu c).control = .runs (.scheduler c)) (hx : (m.cpu c).point = x)
    (hstep : m.stepScheduler c x = some m') : Inv m' := by
  obtain ⟨-, hstack, hproc⟩ := (h.cpus c).of_scheduler hc
  have hlocks : Holds m c x.held := fun j => by rw [h.locks c j, held, hc, ← hx]
  -- Between processes `c->proc` is null.
  have hnone (hne : ∀ i, x ≠ .back i) : (m.cpu c).proc = none := by
    rcases hproc with ⟨hp, -⟩ | ⟨j, -, hj, -⟩
    · exact hp
    · exact absurd (hx.symm.trans hj) (hne j)
  cases x with
  | scan i =>
    obtain ⟨m1, hacq, rfl⟩ := Option.map_eq_some_iff.mp hstep
    obtain ⟨hfree, he⟩ := Option.ite_none_right_eq_some.mp hacq
    cases he
    obtain ⟨hheld, hlock⟩ := acquire_locks hfree hlocks
    exact h.idles hc (hnone (by simp)) hstack (fun c' hc' => setCpu_cpu_of_ne _ hc' _)
      (setCpu_cpu_self ..) (by simp) (same_setLock m i _) hheld hlock
  | found i =>
    by_cases hs : (m.proc i).state = .RUNNABLE
    · rw [stepScheduler, if_pos hs] at hstep
      exact dispatch_inv h (hnone (by simp)) hlocks hs (Option.some.inj hstep).symm
    · rw [stepScheduler, if_neg hs] at hstep
      cases hstep
      exact h.idles hc (hnone (by simp)) hstack (fun c' hc' => setCpu_cpu_of_ne _ hc' _)
        (setCpu_cpu_self ..) (by simp) (fun j => .of_eq rfl) hlocks fun _ _ _ => Iff.rfl
  | back i =>
    cases hstep
    exact back_inv h hc hx
  | done i =>
    obtain ⟨m1, hrel, rfl⟩ := Option.map_eq_some_iff.mp hstep
    obtain ⟨-, he⟩ := Option.ite_none_right_eq_some.mp hrel
    cases he
    obtain ⟨hheld, hlock⟩ := release_locks hlocks
    exact h.idles hc (hnone (by simp)) hstack (fun c' hc' => setCpu_cpu_of_ne _ hc' _)
      (setCpu_cpu_self ..) (by simp) (same_setLock m i _) hheld hlock

/-! A process in the kernel. -/

omit [DecidableEq C] in
theorem setPoint_lock (m : Machine C) (p : Fin NPROC) (x : ProcPoint) (i : Fin NPROC) :
    ((m.setPoint p x).proc i).lock = (m.proc i).lock := by
  by_cases hi : i = p
  · rw [hi, setPoint_self]
  · rw [setPoint_of_ne m hi]

section
variable {y : ProcPoint} (h : Inv m) (hc : (m.cpu c).control = .runs (.process p))
  (hx : (m.proc p).point = x)
include h hc hx

omit [DecidableEq C] in
theorem proc_lock_inv {l : Option C} (hexp : x.expects = .RUNNING) (hexp' : y.expects = .RUNNING)
    (hheld : Holds (m.setLock i l) c (y.held p)) (hlock : OtherLocks m (m.setLock i l) c)
    (hmaking : ∀ q, y.making = some q → x.making = some q ∧ x ≠ .allocated q) :
    Inv ((m.setLock i l).setPoint p y) := by
  subst hx
  obtain ⟨-, -, -, hs, -⟩ := (h.cpus c).of_process hc
  have hsame := same_setLock m i l
  refine h.moves (c := c) (p := p) hc rfl (fun j hj => ?_) ?_ (fun j => ?_) (fun j c' hc' => ?_)
    fun q hq => ?_
  · rw [setPoint_of_ne _ hj]
    exact hsame j
  · rw [setPoint_self]
    exact ((hsame p).state.trans (hs.trans hexp)).trans hexp'.symm
  · rw [setPoint_lock, setPoint_self]
    exact hheld j
  · rw [setPoint_lock]
    exact hlock j c' hc'
  · rw [setPoint_self] at hq
    exact hmaking q hq

omit [DecidableEq C] in
theorem acquire_inv (hexp : x.expects = .RUNNING) (hexp' : y.expects = .RUNNING)
    (hheld : x.held p = none) (hheld' : y.held p = some i)
    (hmaking : ∀ q, y.making = some q → x.making = some q ∧ x ≠ .allocated q)
    (hacq : m.acquire c i = some m1) : Inv (m1.setPoint p y) := by
  obtain ⟨hfree, he⟩ := Option.ite_none_right_eq_some.mp hacq
  cases he
  obtain ⟨hl, hlock⟩ := acquire_locks (c := c) hfree fun j => by rw [h.lock_iff hc, hx, hheld]
  exact proc_lock_inv h hc hx hexp hexp' (by rw [hheld']; exact hl) hlock hmaking

theorem release_inv (hexp : x.expects = .RUNNING) (hexp' : y.expects = .RUNNING)
    (hheld : x.held p = some i) (hheld' : y.held p = none)
    (hmaking : ∀ q, y.making = some q → x.making = some q ∧ x ≠ .allocated q)
    (hrel : m.release c i = some m1) : Inv (m1.setPoint p y) := by
  obtain ⟨-, he⟩ := Option.ite_none_right_eq_some.mp hrel
  cases he
  obtain ⟨hl, hlock⟩ := release_locks (c := c) (i := i) fun j => by rw [h.lock_iff hc, hx, hheld]
  exact proc_lock_inv h hc hx hexp hexp' (by rw [hheld']; exact hl) hlock hmaking

omit [DecidableEq C] in
/-- A process goes on, or changes its own state on the way to `sched`. -/
theorem point_inv (hheld : y.held p = x.held p)
    (hmaking : ∀ q, y.making = some q → x.making = some q ∧ x ≠ .allocated q) :
    Inv ((m.setState p y.expects).setPoint p y) := by
  subst hx
  have hother (j : Fin NPROC) (hj : j ≠ p) :
      ((m.setState p y.expects).setPoint p y).proc j = m.proc j := by
    rw [setPoint_of_ne _ hj, setState, setProc_of_ne _ hj]
  have hself : ((m.setState p y.expects).setPoint p y).proc p =
      { m.proc p with state := y.expects, point := y } := by
    rw [setPoint_self, setState, setProc_self]
  have hlock := field_of_others Proc.lock (by rw [hself]) hother
  refine h.moves (c := c) (p := p) hc rfl (fun j hj => .of_eq (hother j hj)) (by rw [hself])
    (fun j => ?_) (fun j c' _ => by rw [hlock]) fun q hq => ?_
  · rw [hlock, hself, h.lock_iff hc, hheld]
  · rw [hself] at hq
    exact hmaking q hq

end

section
omit [DecidableEq C]

/-- Process `p` goes on at `x` when it has changed slot `q` to `pr`. -/
structure Changed (m m' : Machine C) (p q : Fin NPROC) (pr : Proc C) (x : ProcPoint) : Prop where
  cpu : m'.cpu = m.cpu
  slot : m'.proc q = pr
  self : m'.proc p = { m.proc p with point := x }
  others : ∀ i, i ≠ p → i ≠ q → m'.proc i = m.proc i

theorem changed (m : Machine C) (f : Proc C → Proc C) (x : ProcPoint) (hqp : q ≠ p) :
    Changed m ((m.setProc q f).setPoint p x) p q (f (m.proc q)) x where
  cpu := rfl
  slot := by rw [setPoint_of_ne _ hqp, setProc_self]
  self := by rw [setPoint_self, setProc_of_ne _ hqp.symm]
  others i hip hiq := by rw [setPoint_of_ne _ hip, setProc_of_ne _ hiq]

theorem Changed.ready {st : ProcState} (hch : Changed m m' p q { m.proc q with state := st } x)
    (hr : Ready m q) : Ready m' q := by
  refine ⟨saved_proc (by rw [hch.slot]) (by rw [hch.slot]) hr.1, ?_⟩
  rw [hch.slot]
  exact hr.2

section
variable {y : ProcPoint} {pr : Proc C} (h : Inv m) (hch : Changed m m' p q pr x)
include h hch

/-- A process changes a slot whose lock it holds, where nobody runs. -/
theorem change_inv (hc : (m.cpu c).control = .runs (.process p)) (hx : (m.proc p).point = y)
    (hexp : y.expects = .RUNNING) (hexp' : x.expects = .RUNNING) (hheld : y.held p = some q)
    (hheld' : x.held p = some q) (hq : (m.proc q).state ≠ .RUNNING) (hq' : pr.state ≠ .RUNNING)
    (hlock : pr.lock = (m.proc q).lock) (hready : waiting pr.state → Ready m' q)
    (hmakers : Makers m') : Inv m' := by
  subst hx
  obtain ⟨-, -, -, hs, -⟩ := (h.cpus c).of_process hc
  refine h.acts hc hch.cpu hexp ((h.lock_iff hc q).mpr hheld) hq
    (fun i hip hiq => .of_eq (hch.others i hip hiq)) ?_ ?_ (fun i => ?_) ?_ ?_ ?_ hmakers
  · rw [hch.self]
    exact hs.trans hexp
  · rw [hch.self]
    exact hexp'
  · by_cases hip : i = p
    · rw [hip, hch.self]
    · by_cases hiq : i = q
      · rw [hiq, hch.slot, hlock]
      · rw [hch.others i hip hiq]
  · rw [hch.self, hheld]
    exact hheld'
  · rw [hch.slot]
    exact hq'
  · rw [hch.slot]
    exact hready

/-- The new processes do not notice a change to a slot that is not one of them. -/
theorem makers_state (hpt : pr.point = (m.proc q).point) (hp : (m.proc p).state ≠ .USED)
    (hq : (m.proc q).state ≠ .USED) (hmaking : x.making = (m.proc p).point.making)
    (hne : ∀ r, (m.proc p).point ≠ .allocated r) : Makers m' := by
  refine h.makers.keep (fun r hr => ?_) fun i r => ?_
  · refine Same.ready (.of_eq (hch.others r ?_ ?_)) hr
    · rintro rfl
      exact hp hr
    · rintro rfl
      exact hq hr
  · by_cases hip : i = p
    · intro hr
      rw [hip, hch.self] at hr
      rw [hip, ← hmaking]
      exact ⟨hr, fun _ => hne r⟩
    · refine makesOnly_of_point ?_
      by_cases hiq : i = q
      · rw [hiq, hch.slot, hpt]
      · rw [hch.others i hip hiq]

theorem makers_make (hpt : pr.point = (m.proc q).point ∨ pr.point.making = none)
    (hp : (m.proc p).state ≠ .USED) (hnobody : ∀ i, i ≠ p → (m.proc i).point.making ≠ some q)
    (hx : ∀ r, x.making = some r → r = q) (hused : x.making = some q → pr.state = .USED)
    (hready : x.making = some q → x ≠ .allocated q → Ready m' q) : Makers m' := by
  refine h.makers.make (p := p) (q := q) (fun i r hip => ?_) (fun r hrq hr => ?_) hnobody ?_ ?_ ?_
  · by_cases hiq : i = q
    · rcases hpt with hpt | hpt
      · exact makesOnly_of_point (by rw [hiq, hch.slot, hpt])
      · intro hr
        rw [hiq, hch.slot, hpt] at hr
        cases hr
    · exact makesOnly_of_point (by rw [hch.others i hip hiq])
  · refine Same.ready (.of_eq (hch.others r ?_ hrq)) hr
    rintro rfl
    exact hp hr
  · rw [hch.self]
    exact hx
  · rw [hch.self, hch.slot]
    exact hused
  · rw [hch.self]
    exact hready

end

theorem visit_inv {v : Visit} {ok : Bool} (h : Inv m)
    (hc : (m.cpu c).control = .runs (.process p)) (hx : (m.proc p).point = .visits v q np) :
    Inv (m.stepVisit p q np ok v) := by
  obtain ⟨hproc, -, -, hs, -⟩ := (h.cpus c).of_process hc
  have hexp : (m.proc p).point.expects = .RUNNING := by rw [hx]; rfl
  have hmaking : (m.proc p).point.making = np := by rw [hx]; rfl
  have hne (r : Fin NPROC) : (m.proc p).point ≠ .allocated r := by rw [hx]; simp
  have hused : (m.proc p).state ≠ .USED := by rw [hs, hexp]; simp
  have hl : (m.proc q).lock = some c := (h.lock_iff hc q).mpr (by rw [hx]; rfl)
  have hseen : Inv (m.setPoint p (.seen q np)) := by
    have hmove := point_inv (y := .seen q np) h hc hx rfl fun r hr => ⟨hr, by simp⟩
    have hstate : (ProcPoint.seen q np).expects = (m.proc p).state := (hs.trans hexp).symm
    rwa [hstate, setState_eq] at hmove
  -- `wakeup` and `kkill` make a process `RUNNABLE` that sleeps.
  have hwake : Inv (if ok ∧ (m.proc q).state = .SLEEPING then
      (m.setState q .RUNNABLE).setPoint p (.seen q np) else m.setPoint p (.seen q np)) := by
    split_ifs with hsl
    · have hq : (m.proc q).state ≠ .RUNNING := by rw [hsl.2]; simp
      have hqp := h.not_self hc hexp hq
      have hch := changed m (fun pr => { pr with state := .RUNNABLE }) (.seen q np) hqp
      refine change_inv h hch hc hx rfl rfl rfl rfl hq (by simp) rfl (fun _ => hch.ready ?_)
        (makers_state h hch rfl hused (by rw [hsl.2]; simp) hmaking.symm hne)
      exact h.parked q (by rw [hsl.2]; trivial) (h.not_engaged hl hq (ne_of_proc hproc hqp))
    · exact hseen
  cases v with
  | wakeup | kkill => exact hwake
  | kwait =>
    rw [stepVisit]
    split_ifs with hz
    · have hq : (m.proc q).state ≠ .RUNNING := by rw [hz.2]; simp
      have hch := changed m (fun pr => { pr with state := .UNUSED }) (.seen q np) (h.not_self hc hexp hq)
      exact change_inv h hch hc hx rfl rfl rfl rfl hq (by simp) rfl (fun hw => hw.elim)
        (makers_state h hch rfl hused (by rw [hz.2]; simp) hmaking.symm hne)
    · exact hseen
  | allocproc =>
    rw [stepVisit]
    split_ifs with hu
    · have hq : (m.proc q).state ≠ .RUNNING := by rw [hu]; simp
      have hch := changed m (fun pr => { pr with state := .USED }) (.allocated q) (h.not_self hc hexp hq)
      refine change_inv h hch hc hx rfl rfl rfl rfl hq (by simp) rfl (fun hw => hw.elim)
        (makers_make h hch (.inl rfl) hused (fun i _ hi => ?_) (fun r hr => (Option.some.inj hr).symm)
          (fun _ => rfl) fun _ hne => absurd rfl hne)
      have hi' := h.makers.used i q hi
      rw [hu] at hi'
      cases hi'
    · exact hseen

theorem finish_inv {st : ProcState} (h : Inv m) (hc : (m.cpu c).control = .runs (.process p))
    (hx : (m.proc p).point = x) (hexp : x.expects = .RUNNING) (hheld : x.held p = some q)
    (hmaking : x.making = some q) (hst : st = .UNUSED ∨ st = .RUNNABLE ∧ x ≠ .allocated q) :
    Inv ((m.setState q st).setPoint p (.seen q none)) := by
  subst hx
  obtain ⟨-, -, -, hs, -⟩ := (h.cpus c).of_process hc
  have hused := h.makers.used p q hmaking
  have hq : (m.proc q).state ≠ .RUNNING := by rw [hused]; simp
  have hch := changed m (fun pr => { pr with state := st }) (.seen q none) (h.not_self hc hexp hq)
  refine change_inv h hch hc rfl hexp rfl hheld rfl hq ?_ rfl (fun hw => ?_)
    (makers_make h hch (.inl rfl) (by rw [hs, hexp]; simp)
      (fun i hi hi' => hi (h.makers.unique i p q hi' hmaking)) (by simp [ProcPoint.making])
      (by simp [ProcPoint.making]) (by simp [ProcPoint.making]))
  · rcases hst with rfl | ⟨rfl, -⟩ <;> simp
  · rcases hst with rfl | ⟨rfl, hne⟩
    · exact hw.elim
    · exact hch.ready (h.makers.ready p q hmaking hne)

/-- `p->context.ra = forkret`. -/
abbrev setUp (q : Fin NPROC) (pr : Proc C) : Proc C :=
  { pr with
    point := .forkret
    context := fun _ => ⟨.process q, pr.switches+1⟩
    switches := pr.switches+1 }

theorem setup_inv (h : Inv m) (hc : (m.cpu c).control = .runs (.process p))
    (hx : (m.proc p).point = .allocated q) :
    Inv ((m.setProc q (setUp q)).setPoint p (.created q)) := by
  obtain ⟨-, -, -, hs, -⟩ := (h.cpus c).of_process hc
  have hexp : (m.proc p).point.expects = .RUNNING := by rw [hx]; rfl
  have hmaking : (m.proc p).point.making = some q := by rw [hx]; rfl
  have hused := h.makers.used p q hmaking
  have hq : (m.proc q).state ≠ .RUNNING := by rw [hused]; simp
  obtain ⟨m', hm'⟩ : ∃ m', m' = (m.setProc q (setUp q)).setPoint p (.created q) := ⟨_, rfl⟩
  have hch := changed m (setUp q) (.created q) (h.not_self hc hexp hq)
  rw [← hm'] at hch ⊢
  have hready : Ready m' q := by
    refine ⟨fun r => ?_, by rw [hch.slot]; trivial⟩
    change (m'.proc q).context r = ⟨.process q, (m'.proc q).switches⟩
    rw [hch.slot]
  exact change_inv h hch hc hx rfl rfl rfl rfl hq hq rfl (fun _ => hready)
    (makers_make h hch (.inr rfl) (by rw [hs, hexp]; simp)
      (fun i hi hi' => hi (h.makers.unique i p q hi' hmaking)) (fun r hr => (Option.some.inj hr).symm)
      (fun _ => hused) fun _ _ => hready)

end

theorem sched_inv {why : Leave} (h : Inv m)
    (hc : (m.cpu c).control = .runs (.process p)) (hx : (m.proc p).point = .calls why np)
    (hm' : m' = (m.setPoint p (.resumed why np)).callSwtch c (.process p) (.scheduler c)) :
    Inv m' := by
  obtain ⟨hproc, hpoint, hstack, hs, hsaved⟩ := (h.cpus c).of_process hc
  have hgone : gone (m.proc p).state := by
    rw [hs, hx]
    exact why.gone
  have hcpu : m'.cpu c = { m.cpu c with
      control := .swtch (.process p) (.scheduler c) 0
      regs := fun _ => ⟨.process p, (m.proc p).switches+1⟩ } := by
    rw [hm', callSwtch, setCpu_cpu_self, switches, setProc_self, setPoint_self]
    rfl
  have hself : m'.proc p = { m.proc p with
      point := .resumed why np, switches := (m.proc p).switches+1 } := by
    rw [hm', callSwtch, setCpu_proc, setProc_self, setPoint_self]
  have hother (i : Fin NPROC) (hi : i ≠ p) : m'.proc i = m.proc i := by
    rw [hm', callSwtch, setCpu_proc, setProc_of_ne _ hi, setPoint_of_ne _ hi]
  have hlock := field_of_others Proc.lock (by rw [hself]) hother
  have hcp : (m'.cpu c).proc = some p := by rw [hcpu]; exact hproc
  refine h.own hproc (fun c' hc' => ?_) hcp (fun i hi => .of_eq (hother i hi)) ?_ ?_ (fun i => ?_)
    (fun i c' _ => by rw [hlock i]) fun r hr => ?_
  · rw [hm', callSwtch, setCpu_cpu_of_ne _ hc']
    rfl
  · intro hu
    rw [hu] at hgone
    exact hgone
  · refine .exits p 0 (by rw [hcpu]) hcp (by rw [hcpu]; exact hpoint) (by rw [hself]; exact hgone)
      (by rw [hself]; trivial)
      (saved_cpu (by rw [hcpu]) (by rw [hcpu]) hsaved)
      ⟨by omega, fun r hr => absurd hr (by omega), fun r => ?_⟩
    rw [if_neg (by omega), hcpu, switches, hself]
  · have hheld : m'.held c = some p := by
      rw [held, hcpu]
      exact hproc
    rw [hlock i, h.lock_iff hc, hx, hheld]
    rfl
  · rw [hself] at hr
    rw [hx]
    exact ⟨hr, fun _ => by simp⟩

/-- What a process does in one step, by where it is. -/
inductive ProcStep (m : Machine C) (c : C) (p : Fin NPROC) : ProcPoint → Machine C → Prop
  | acquire {x y : ProcPoint} {i : Fin NPROC} {m' : Machine C} (expects : x.expects = .RUNNING)
      (expects' : y.expects = .RUNNING) (held : x.held p = none) (held' : y.held p = some i)
      (making : ∀ q, y.making = some q → x.making = some q ∧ x ≠ .allocated q)
      (step : m.acquire c i = some m') : ProcStep m c p x (m'.setPoint p y)
  | release {x y : ProcPoint} {i : Fin NPROC} {m' : Machine C} (expects : x.expects = .RUNNING)
      (expects' : y.expects = .RUNNING) (held : x.held p = some i) (held' : y.held p = none)
      (making : ∀ q, y.making = some q → x.making = some q ∧ x ≠ .allocated q)
      (step : m.release c i = some m') : ProcStep m c p x (m'.setPoint p y)
  | visit (v : Visit) (q : Fin NPROC) (np : Option (Fin NPROC)) (ok : Bool) :
      ProcStep m c p (.visits v q np) (m.stepVisit p q np ok v)
  | setup (q : Fin NPROC) :
      ProcStep m c p (.allocated q) ((m.setProc q (setUp q)).setPoint p (.created q))
  | finish {x : ProcPoint} {q : Fin NPROC} {st : ProcState} (expects : x.expects = .RUNNING)
      (held : x.held p = some q) (making : x.making = some q)
      (state : st = .UNUSED ∨ st = .RUNNABLE ∧ x ≠ .allocated q) :
      ProcStep m c p x ((m.setState q st).setPoint p (.seen q none))
  | leaves (why : Leave) (np : Option (Fin NPROC)) :
      ProcStep m c p (.leaves why np) ((m.setState p why.state).setPoint p (.calls why np))
  | calls (why : Leave) (np : Option (Fin NPROC)) : ProcStep m c p (.calls why np)
      ((m.setPoint p (.resumed why np)).callSwtch c (.process p) (.scheduler c))

theorem stepProcess_cases (hstep : m.stepProcess c p p choice x = some m') : ProcStep m c p x m' := by
  cases x with
  | kernel np =>
    -- The new process stays the same.
    have hacq (i : Fin NPROC) (y : ProcPoint) (hexp : y.expects = .RUNNING)
        (hheld : y.held p = some i) (hmaking : y.making = np)
        (hy : (m.acquire c i).map (·.setPoint p y) = some m') : ProcStep m c p (.kernel np) m' := by
      obtain ⟨m1, hacq, rfl⟩ := Option.map_eq_some_iff.mp hy
      exact .acquire rfl hexp rfl hheld (fun q hq => ⟨hmaking.symm.trans hq, by simp⟩) hacq
    cases choice with
    | succeeds ok => cases hstep
    | act a =>
      cases a with
      | leave why =>
        exact hacq p (.leaves why np) rfl rfl rfl (Option.ite_none_right_eq_some.mp hstep).2
      | visit v q =>
        exact hacq q (.visits v q np) rfl rfl rfl (Option.ite_none_right_eq_some.mp hstep).2
      | enable =>
        cases np with
        | none => cases hstep
        | some q => exact hacq q (.enables q) rfl rfl rfl hstep
  | visits v q np =>
    cases choice with
    | succeeds ok =>
      cases hstep
      exact .visit v q np ok
    | act a => cases hstep
  | seen q np =>
    obtain ⟨m1, hrel, rfl⟩ := Option.map_eq_some_iff.mp hstep
    exact .release rfl rfl rfl rfl (fun r hr => ⟨hr, by simp⟩) hrel
  | allocated q =>
    cases choice with
    | succeeds ok =>
      cases ok with
      | true =>
        cases hstep
        exact .setup q
      | false =>
        cases hstep
        exact .finish rfl rfl rfl (.inl rfl)
    | act a => cases hstep
  | created q =>
    cases choice with
    | succeeds ok =>
      cases ok with
      | true =>
        obtain ⟨m1, hrel, rfl⟩ := Option.map_eq_some_iff.mp hstep
        exact .release rfl rfl rfl rfl (fun r hr => ⟨hr, by simp⟩) hrel
      | false =>
        cases hstep
        exact .finish rfl rfl rfl (.inl rfl)
    | act a => cases hstep
  | enables q =>
    cases hstep
    exact .finish rfl rfl rfl (.inr ⟨rfl, by simp⟩)
  | leaves why np =>
    cases hstep
    exact .leaves why np
  | calls why np =>
    obtain ⟨-, he⟩ := Option.ite_none_right_eq_some.mp hstep
    cases he
    exact .calls why np
  | resumed why np =>
    have hrel : (m.release c p).map (·.setPoint p (.kernel np)) = some m' := by
      cases why with
      | exit => cases hstep
      | yield | sleep => exact hstep
    obtain ⟨m1, hrel', rfl⟩ := Option.map_eq_some_iff.mp hrel
    exact .release rfl rfl rfl rfl (fun r hr => ⟨hr, by simp⟩) hrel'
  | forkret =>
    obtain ⟨m1, hrel, rfl⟩ := Option.map_eq_some_iff.mp hstep
    exact .release rfl rfl rfl rfl (fun r hr => by cases hr) hrel

theorem process_inv (h : Inv m) (hc : (m.cpu c).control = .runs (.process p))
    (hx : (m.proc p).point = x) (hstep : ProcStep m c p x m') : Inv m' := by
  cases hstep with
  | acquire hexp hexp' hheld hheld' hmaking hacq =>
    exact acquire_inv h hc hx hexp hexp' hheld hheld' hmaking hacq
  | release hexp hexp' hheld hheld' hmaking hrel =>
    exact release_inv h hc hx hexp hexp' hheld hheld' hmaking hrel
  | visit v q np ok => exact visit_inv h hc hx
  | setup q => exact setup_inv h hc hx
  | finish hexp hheld hmaking hst => exact finish_inv h hc hx hexp hheld hmaking hst
  | leaves why np => exact point_inv (y := .calls why np) h hc hx rfl fun r hr => ⟨hr, by simp⟩
  | calls why np => exact sched_inv h hc hx rfl

/-! The instructions of `swtch`. -/

section
variable {old new : Thread C}

omit [DecidableEq C] in
theorem Switching.store (h : m.Switching c old new k) (hk : k < REGS)
    (hctx : m'.context old = update (m.context old) ⟨k, hk⟩ ⟨old, m.switches old⟩)
    (hold : m'.switches old = m.switches old) (hnew : m'.switches new = m.switches new)
    (hregs : (m'.cpu c).regs = (m.cpu c).regs) : m'.Switching c old new (k+1) := by
  refine ⟨by omega, fun r hr => ?_, fun r => ?_⟩
  · rw [hctx, hold]
    by_cases hrk : r = ⟨k, hk⟩
    · rw [hrk, update_self]
    · have hne : r.val ≠ k := fun he => hrk (Fin.ext he)
      rw [update_of_ne hrk]
      exact h.stored r (by omega)
  · rw [hregs, hold, hnew, h.regs, if_neg (by omega), if_neg (by omega)]

omit [DecidableEq C] in
theorem Switching.load (h : m.Switching c old new k) (hk : ¬k < REGS) (hk' : k-REGS < REGS)
    (hctx : m'.context old = m.context old)
    (hold : m'.switches old = m.switches old) (hnew : m'.switches new = m.switches new)
    (hregs : (m'.cpu c).regs = update (m.cpu c).regs ⟨k-REGS, hk'⟩ ⟨new, m.switches new⟩) :
    m'.Switching c old new (k+1) := by
  refine ⟨by omega, fun r _ => ?_, fun r => ?_⟩
  · rw [hctx, hold]
    exact h.stored r (by omega)
  · rw [hregs, hold, hnew]
    by_cases hrk : r = ⟨k-REGS, hk'⟩
    · have hr : r.val = k-REGS := by rw [hrk]
      rw [if_pos (by omega), hrk, update_self]
    · have hne : r.val ≠ k-REGS := fun he => hrk (Fin.ext he)
      rw [update_of_ne hrk, h.regs]
      by_cases hlt : REGS+r.val < k
      · rw [if_pos hlt, if_pos (by omega)]
      · rw [if_neg hlt, if_neg (by omega)]

variable (h : Inv m) (hc : (m.cpu c).control = .swtch old new k)
include h hc

omit [DecidableEq C] in
/-- One instruction changes registers, or the context of the old thread. -/
theorem swtch_next_inv {context regs : Context C} (hcpus : OtherCpus m m' c)
    (hcpu : m'.cpu c = { m.cpu c with
      control := .swtch old new (k+1), context := context, regs := regs })
    (hproc : ∀ i, m'.proc i = { m.proc i with context := (m'.proc i).context })
    (hothers : ∀ i, old ≠ .process i → m'.proc i = m.proc i)
    (hsaved : m'.Saved new) (hsw : m'.Switching c old new (k+1)) : Inv m' := by
  obtain ⟨i, hp, hpoint, hentry, -, -, hcase⟩ := (h.cpus c).of_swtch hc
  have hcp : (m'.cpu c).proc = some i := by rw [hcpu]; exact hp
  have hpt : (m'.cpu c).point = .back i := by rw [hcpu]; exact hpoint
  have hlock (j : Fin NPROC) : (m'.proc j).lock = (m.proc j).lock := by rw [hproc j]
  have hentry' : (m'.proc i).point.entry := by rw [hproc i]; exact hentry
  refine h.own hp hcpus hcp (fun j hj => .of_eq (hothers j ?_)) ?_ ?_ (fun j => ?_)
    (fun j c' _ => by rw [hlock j]) fun q => makesOnly_of_point (by rw [hproc i])
  · rcases hcase with ⟨rfl, -⟩ | ⟨rfl, -⟩
    · simp
    · exact fun he => hj (Thread.process.inj he).symm
  · intro hu
    rcases hcase with ⟨-, -, hs⟩ | ⟨-, -, hs⟩ <;> rw [hu] at hs
    · cases hs
    · exact hs
  · rcases hcase with ⟨rfl, rfl, hs⟩ | ⟨rfl, rfl, hs⟩
    · exact .enters i (k+1) (by rw [hcpu]) hcp hpt (by rw [hproc i]; exact hs) hentry' hsaved hsw
    · exact .exits i (k+1) (by rw [hcpu]) hcp hpt (by rw [hproc i]; exact hs) hentry' hsaved hsw
  · rw [hlock j, h.locks c j, held, held, hcpu, hc]

theorem store_inv (hk : k < REGS) (hm' : m' = (m.store c old ⟨k, hk⟩).setCpu c fun cp =>
      { cp with control := .swtch old new (k+1) }) : Inv m' := by
  obtain ⟨i, -, -, -, hsw, hsaved, hcase⟩ := (h.cpus c).of_swtch hc
  have hreg : (m.cpu c).regs ⟨k, hk⟩ = ⟨old, m.switches old⟩ := by rw [hsw.regs, if_neg (by omega)]
  rcases hcase with ⟨rfl, rfl, -⟩ | ⟨rfl, rfl, -⟩
  · have hcpu : m'.cpu c = { m.cpu c with
        control := .swtch (.scheduler c) (.process i) (k+1)
        context := update (m.cpu c).context ⟨k, hk⟩ ⟨.scheduler c, (m.cpu c).switches⟩ } := by
      rw [hm', setCpu_cpu_self, store, setCpu_cpu_self, hreg]
      rfl
    have hp (j : Fin NPROC) : m'.proc j = m.proc j := by rw [hm']; rfl
    refine swtch_next_inv h hc (fun c' hc' => ?_) hcpu (fun j => by rw [hp j]) (fun j _ => hp j)
      (saved_proc (by rw [hp i]) (by rw [hp i]) hsaved)
      (hsw.store hk (congrArg Cpu.context hcpu) (congrArg Cpu.switches hcpu :)
        (congrArg Proc.switches (hp i)) (congrArg Cpu.regs hcpu :))
    rw [hm', setCpu_cpu_of_ne _ hc', store, setCpu_cpu_of_ne _ hc']
  · have hcpu : m'.cpu c = { m.cpu c with
        control := .swtch (.process i) (.scheduler c) (k+1) } := by
      rw [hm', setCpu_cpu_self]
      rfl
    have hself : m'.proc i = { m.proc i with
        context := update (m.proc i).context ⟨k, hk⟩ ⟨.process i, (m.proc i).switches⟩ } := by
      rw [hm', setCpu_proc, store, setProc_self, hreg]
      rfl
    have hother (j : Fin NPROC) (hj : j ≠ i) : m'.proc j = m.proc j := by
      rw [hm', setCpu_proc, store, setProc_of_ne _ hj]
    refine swtch_next_inv h hc (fun c' hc' => ?_) hcpu (fun j => ?_)
      (fun j hj => hother j fun he => hj (he ▸ rfl))
      (saved_cpu (by rw [hcpu]) (by rw [hcpu]) hsaved)
      (hsw.store hk (congrArg Proc.context hself) (congrArg Proc.switches hself :)
        (congrArg Cpu.switches hcpu :) (congrArg Cpu.regs hcpu :))
    · rw [hm', setCpu_cpu_of_ne _ hc']
      rfl
    · by_cases hj : j = i
      · rw [hj, hself]
      · rw [hother j hj]

theorem load_inv (hk : ¬k < REGS) (hk' : k-REGS < REGS)
    (hm' : m' = (m.load c new ⟨k-REGS, hk'⟩).setCpu c fun cp =>
      { cp with control := .swtch old new (k+1) }) : Inv m' := by
  obtain ⟨-, -, -, -, hsw, hsaved, -⟩ := (h.cpus c).of_swtch hc
  have hcpu : m'.cpu c = { m.cpu c with
      control := .swtch old new (k+1)
      regs := update (m.cpu c).regs ⟨k-REGS, hk'⟩ ⟨new, m.switches new⟩ } := by
    rw [hm', setCpu_cpu_self, load, setCpu_cpu_self, hsaved]
  have hp (j : Fin NPROC) : m'.proc j = m.proc j := by rw [hm']; rfl
  have hcpus : OtherCpus m m' c := fun c' hc' => by
    rw [hm', setCpu_cpu_of_ne _ hc', load, setCpu_cpu_of_ne _ hc']
  -- Neither contexts nor numbers of switches change.
  have hctx (t : Thread C) : m'.context t = m.context t ∧ m'.switches t = m.switches t := by
    cases t with
    | process p => exact ⟨congrArg Proc.context (hp p), congrArg Proc.switches (hp p)⟩
    | scheduler c' =>
      rw [Machine.context, Machine.context, switches, switches]
      by_cases hc' : c' = c
      · rw [hc', hcpu]
        exact ⟨rfl, rfl⟩
      · rw [hcpus c' hc']
        exact ⟨rfl, rfl⟩
  exact swtch_next_inv h hc hcpus hcpu (fun j => by rw [hp j]) (fun j _ => hp j)
    (saved_of_eq (hctx new).1 (hctx new).2 hsaved)
    (hsw.load hk hk' (hctx old).1 (hctx old).2 (hctx new).2 (congrArg Cpu.regs hcpu :))

theorem ret_inv (hk : 2*REGS ≤ k) : Inv (m.ret c) := by
  obtain ⟨i, hproc, hpoint, hentry, hsw, hsaved, hcase⟩ := (h.cpus c).of_swtch hc
  have hreg (r : Fin REGS) : (m.cpu c).regs r = ⟨new, m.switches new⟩ := by
    rw [hsw.regs r, if_pos (by omega)]
  have hold : m.Saved old := fun r => hsw.stored r (by omega)
  obtain ⟨m', hm'⟩ : ∃ m', m' = m.ret c := ⟨_, rfl⟩
  rw [← hm']
  have hcpu : m'.cpu c = { m.cpu c with control := .runs new } := by
    rw [hm', ret, setCpu_cpu_self, hreg SP, if_pos ⟨hreg, rfl⟩]
  have hstack : m'.stack c = new := by
    rw [stack, hcpu]
    exact congrArg Reg.thread (hreg SP)
  have hp : m'.proc = m.proc := by rw [hm', ret, setCpu_proc]
  have hcp : (m'.cpu c).proc = some i := by rw [hcpu]; exact hproc
  have hpt : (m'.cpu c).point = .back i := by rw [hcpu]; exact hpoint
  have hheld : m.held c = some i := by
    rw [held, hc]
    exact hproc
  refine h.cpuOnly (c := c) (fun c' hc' => by rw [hm', ret, setCpu_cpu_of_ne _ hc']) hp
    (by rw [hcpu]) ?_ ?_
  · rw [hheld, held, hcpu]
    rcases hcase with ⟨-, rfl, -⟩ | ⟨-, rfl, -⟩
    · rw [hp]
      exact hentry.held
    · rw [hpoint]
      rfl
  · rcases hcase with ⟨rfl, rfl, hs⟩ | ⟨rfl, rfl, hs⟩
    · exact .runs i (by rw [hcpu]) hcp hpt hstack (by rw [hp, hs, hentry.expects])
        (saved_cpu (by rw [hcpu]) (by rw [hcpu]) hold)
    · have hself := congrFun hp i
      exact .back i (by rw [hcpu]) hcp hpt hstack (by rw [hp]; exact hs) (by rw [hp]; exact hentry)
        (saved_proc (by rw [hself]) (by rw [hself]) hold)

theorem swtch_inv : Inv (m.stepSwtch c old new k) := by
  rw [stepSwtch]
  by_cases hk : k < REGS
  · rw [dif_pos hk]
    exact store_inv h hc hk rfl
  rw [dif_neg hk]
  split_ifs with hk'
  · exact load_inv h hc hk hk' rfl
  · exact ret_inv h hc (by omega)

end

/-! Runs. -/

theorem step_inv (h : Inv m) (hstep : m.step c choice = some m') : Inv m' := by
  rw [step] at hstep
  obtain ⟨control, hc⟩ : ∃ control, (m.cpu c).control = control := ⟨_, rfl⟩
  rw [hc] at hstep
  cases control with
  | runs t =>
    cases t with
    | scheduler c' =>
      obtain ⟨rfl, -, -⟩ := (h.cpus c).of_scheduler hc
      exact scheduler_inv h hc rfl hstep
    | process p =>
      obtain ⟨hproc, -⟩ := (h.cpus c).of_process hc
      rw [hproc] at hstep
      exact process_inv h hc rfl (stepProcess_cases hstep)
  | swtch old new k =>
    cases hstep
    exact swtch_inv h hc
  | lost => cases hstep

theorem run_inv (h : Inv m) {schedule : List (C × Choice)} (hrun : m.run schedule = some m') :
    Inv m' := by
  induction schedule generalizing m with
  | nil =>
    cases hrun
    exact h
  | cons a schedule ih =>
    obtain ⟨m1, hstep, hrest⟩ := Option.bind_eq_some_iff.mp hrun
    exact ih (step_inv h hstep) hrest

/-! When a slot is freed. -/

theorem release_cpu (h : m.release c i = some m1) : m1.cpu = m.cpu := by
  obtain ⟨-, he⟩ := Option.ite_none_right_eq_some.mp h
  cases he
  rfl

theorem release_state (h : m.release c i = some m1)
    (q : Fin NPROC) : (m1.proc q).state = (m.proc q).state := by
  obtain ⟨-, he⟩ := Option.ite_none_right_eq_some.mp h
  cases he
  by_cases hq : q = i
  · rw [hq, setProc_self]
  · rw [setProc_of_ne _ hq]

theorem process_cpu_proc (hstep : ProcStep m c p x m') (c' : C) :
    (m'.cpu c').proc = (m.cpu c').proc := by
  cases hstep with
  | acquire _ _ _ _ _ hacq => rw [setPoint, setProc_cpu, acquire_cpu hacq]
  | release _ _ _ _ _ hrel => rw [setPoint, setProc_cpu, release_cpu hrel]
  | visit v q np ok => rw [visit_cpu]
  | setup | finish | leaves => rfl
  | calls why np =>
    rw [callSwtch]
    by_cases hc' : c' = c
    · rw [hc', setCpu_cpu_self]
      rfl
    · rw [setCpu_cpu_of_ne _ hc']
      rfl

theorem scheduler_frees_none {x : SchedPoint} (hstep : m.stepScheduler c x = some m')
    (hfree : (m'.proc q).state = .UNUSED) : (m.proc q).state = .UNUSED := by
  cases x with
  | scan i =>
    obtain ⟨m1, hacq, rfl⟩ := Option.map_eq_some_iff.mp hstep
    exact (acquire_state hacq q).symm.trans hfree
  | found i =>
    rw [stepScheduler] at hstep
    split at hstep
    · cases hstep
      by_cases hq : q = i
      · rw [hq] at hfree
        change (((m.setState i .RUNNING)).proc i).state = .UNUSED at hfree
        rw [setState, setProc_self] at hfree
        cases hfree
      · change ((m.setState i .RUNNING).proc q).state = .UNUSED at hfree
        rwa [setState, setProc_of_ne _ hq] at hfree
    · cases hstep
      exact hfree
  | back i =>
    cases hstep
    exact hfree
  | done i =>
    obtain ⟨m1, hrel, rfl⟩ := Option.map_eq_some_iff.mp hstep
    exact (release_state hrel q).symm.trans hfree

theorem swtch_state (m : Machine C) (c : C) (old new : Thread C) (k : ℕ) (q : Fin NPROC) :
    ((m.stepSwtch c old new k).proc q).state = (m.proc q).state := by
  rw [stepSwtch]
  split
  · rw [setCpu_proc]
    cases old with
    | scheduler c' => rfl
    | process i =>
      by_cases hq : q = i
      · rw [hq, store, setProc_self]
      · rw [store, setProc_of_ne _ hq]
  · split <;> rfl

theorem freed_off_cpu (h : Inv m) (hstep : m.step c choice = some m')
    (hused : (m.proc q).state ≠ .UNUSED) (hfree : (m'.proc q).state = .UNUSED) (c' : C) :
    (m.cpu c').proc ≠ some q := by
  intro hq
  -- Whoever has the process in `c->proc` after the step would find it `UNUSED`.
  have hleft : (m'.cpu c').proc ≠ some q := by
    intro hq'
    rcases ((step_inv h hstep).cpus c').engaged hq' with hrun | ⟨hgone, -⟩
    · rw [hfree] at hrun
      cases hrun
    · rw [hfree] at hgone
      exact hgone
  rw [step] at hstep
  obtain ⟨control, hc⟩ : ∃ control, (m.cpu c).control = control := ⟨_, rfl⟩
  rw [hc] at hstep
  cases control with
  | runs t =>
    cases t with
    | scheduler c1 =>
      exact hused (scheduler_frees_none hstep hfree)
    | process p =>
      obtain ⟨hproc, -⟩ := (h.cpus c).of_process hc
      rw [hproc] at hstep
      exact hleft ((process_cpu_proc (stepProcess_cases hstep) c').trans hq)
  | swtch old new k =>
    cases hstep
    exact hused ((swtch_state m c old new k q).symm.trans hfree)
  | lost => cases hstep

/-! What holds from the start on. -/

/-- In every run of any CPUs from a start: a `RUNNING` process is on exactly one CPU; one that has
left its CPU, with its lock free, has its stack to itself and its context complete, unless it is a
zombie; two CPUs neither have one process nor execute on one stack, and each goes on where a thread
has left off; and `freeproc` frees no process that is on a CPU. -/
theorem one_cpu_per_stack (hstart : Start m) {schedule : List (C × Choice)}
    (hrun : m.run schedule = some m') :
    (∀ p, (m'.proc p).state = .RUNNING → ∃! c, (m'.cpu c).proc = some p) ∧
    (∀ p, (m'.proc p).lock = none → gone (m'.proc p).state → (∀ c, m'.stack c ≠ .process p) ∧
        ((m'.proc p).state ≠ .ZOMBIE → m'.Saved (.process p))) ∧
    (∀ c c' p, m'.stack c = .process p → m'.stack c' = .process p → c = c') ∧
    (∀ c c' p, (m'.cpu c).proc = some p → (m'.cpu c').proc = some p → c = c') ∧
    (∀ c, (m'.cpu c).control ≠ .lost) ∧
    ∀ c choice next, m'.step c choice = some next → ∀ q, (m'.proc q).state ≠ .UNUSED →
      (next.proc q).state = .UNUSED → ∀ c', m'.stack c' ≠ .process q ∧ (m'.cpu c').proc ≠ some q := by
  have h : Inv m' := run_inv hstart.inv hrun
  refine ⟨fun p hp => ?_, fun p hl hs => ⟨fun c hc => ?_, fun hz => ?_⟩, fun c c' p hc hc' => ?_,
    h.unique, fun c => (h.cpus c).not_lost, fun c choice next hstep q hq hfree c' => ?_⟩
  · obtain ⟨c, hc⟩ := h.running p hp
    exact ⟨c, hc, fun c' hc' => h.unique c' c p hc' hc⟩
  · exact h.off_cpu hl hs c ((h.cpus c).proc_of_stack hc)
  · have hwaits : waiting (m'.proc p).state := by
      cases hstate : (m'.proc p).state with
      | RUNNABLE | SLEEPING => trivial
      | ZOMBIE => exact hz hstate
      | _ => rw [hstate] at hs; exact hs
    exact (h.parked p hwaits (h.off_cpu hl hs)).1
  · exact h.unique c c' p ((h.cpus c).proc_of_stack hc) ((h.cpus c').proc_of_stack hc')
  · have hoff := freed_off_cpu h hstep hq hfree c'
    exact ⟨fun hc => hoff ((h.cpus c').proc_of_stack hc), hoff⟩

def forkSchedule : List (Bool × Choice) :=
  let switches (c : Bool) := List.replicate (2+2*REGS+1) (c, Choice.succeeds true)
  switches false ++
    [(false, .succeeds true), (false, .act (.visit .allocproc 1)), (false, .succeeds true),
      (false, .succeeds true), (false, .succeeds true), (false, .act .enable),
      (false, .succeeds true), (false, .succeeds true)] ++
    List.replicate 3 (true, .succeeds true) ++ switches true

theorem one_cpu_per_stack_fork : ∃ m', (boot Bool).run forkSchedule = some m' ∧
    (m'.proc 1).state = .RUNNING ∧ ∃! c, (m'.cpu c).proc = some 1 := by
  have hstate : ((boot Bool).run forkSchedule).map (fun m => (m.proc 1).state) = some .RUNNING := by
    decide +kernel
  obtain ⟨m', hrun, hrunning⟩ := Option.map_eq_some_iff.mp hstate
  exact ⟨m', hrun, hrunning, (one_cpu_per_stack boot_start hrun).1 1 hrunning⟩

end Machine
end Xv6.Cpus
