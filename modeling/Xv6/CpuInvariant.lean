import Xv6.CpuSwitch

/-! No two CPUs execute on one kernel stack. For each CPU the invariant says, by what the CPU is
doing, what it has to do with the process in `c->proc`; `p->lock` is held by the CPU that deals with
the slot. -/
namespace Xv6.Cpus
open Function

def gone : ProcState → Prop
  | .RUNNABLE | .SLEEPING | .ZOMBIE => True
  | _ => False

def waiting : ProcState → Prop
  | .RUNNABLE | .SLEEPING => True
  | _ => False

def SchedPoint.held : SchedPoint → Option (Fin NPROC)
  | .scan _ => none
  | .found i | .back i | .done i => some i

namespace ProcPoint

variable {p : Fin NPROC}

def held (p : Fin NPROC) : ProcPoint → Option (Fin NPROC)
  | .kernel _ => none
  | .visits _ q _ | .seen q _ | .allocated q | .created q | .enables q => some q
  | .leaves .. | .calls .. | .resumed .. | .forkret => some p

def expects : ProcPoint → ProcState
  | .calls why _ => why.state
  | _ => .RUNNING

def entry : ProcPoint → Prop
  | .resumed .. | .forkret => True
  | _ => False

theorem entry.expects {x : ProcPoint} (h : x.entry) : x.expects = .RUNNING := by
  cases x with
  | calls why np => exact h.elim
  | _ => rfl

theorem entry.held {x : ProcPoint} (h : x.entry) : x.held p = some p := by
  cases x with
  | resumed | forkret => rfl
  | _ => exact h.elim

def making : ProcPoint → Option (Fin NPROC)
  | .kernel np | .visits _ _ np | .seen _ np | .leaves _ np | .calls _ np | .resumed _ np => np
  | .allocated q | .created q | .enables q => some q
  | .forkret => none

theorem expects_ne_used (x : ProcPoint) : x.expects ≠ .USED := by
  cases x with
  | calls why np => cases why <;> nofun
  | _ => nofun

end ProcPoint

theorem Leave.gone (why : Leave) : gone why.state := by
  cases why <;> trivial

namespace Machine

variable {C : Type} {m m' : Machine C} {c c' : C} {p q i : Fin NPROC}

def held (m : Machine C) (c : C) : Option (Fin NPROC) :=
  match (m.cpu c).control with
  | .runs (.scheduler _) => (m.cpu c).point.held
  | .runs (.process p) => (m.proc p).point.held p
  | .swtch .. => (m.cpu c).proc
  | .lost => none

structure Switching (m : Machine C) (c : C) (old new : Thread C) (k : ℕ) : Prop where
  bound : k ≤ 2*REGS
  stored : ∀ r : Fin REGS, r.val < k → m.context old r = ⟨old, m.switches old⟩
  regs : ∀ r : Fin REGS, (m.cpu c).regs r =
    if REGS+r.val < k then ⟨new, m.switches new⟩ else ⟨old, m.switches old⟩

/-- What holds of a CPU and of the process in `c->proc`. -/
inductive CpuOk (m : Machine C) (c : C) : Prop where
  /-- The scheduler, between processes. -/
  | idle (control : (m.cpu c).control = .runs (.scheduler c)) (proc : (m.cpu c).proc = none)
      (point : ∀ i, (m.cpu c).point ≠ .back i) (stack : m.stack c = .scheduler c)
  /-- The scheduler, after `swtch`. -/
  | back (i : Fin NPROC) (control : (m.cpu c).control = .runs (.scheduler c))
      (proc : (m.cpu c).proc = some i) (point : (m.cpu c).point = .back i)
      (stack : m.stack c = .scheduler c) (state : gone (m.proc i).state)
      (entry : (m.proc i).point.entry) (saved : m.Saved (.process i))
  | runs (i : Fin NPROC) (control : (m.cpu c).control = .runs (.process i))
      (proc : (m.cpu c).proc = some i) (point : (m.cpu c).point = .back i)
      (stack : m.stack c = .process i) (state : (m.proc i).state = (m.proc i).point.expects)
      (saved : m.Saved (.scheduler c))
  /-- From the scheduler to a process. -/
  | enters (i : Fin NPROC) (k : ℕ)
      (control : (m.cpu c).control = .swtch (.scheduler c) (.process i) k)
      (proc : (m.cpu c).proc = some i) (point : (m.cpu c).point = .back i)
      (state : (m.proc i).state = .RUNNING) (entry : (m.proc i).point.entry)
      (saved : m.Saved (.process i)) (switching : m.Switching c (.scheduler c) (.process i) k)
  /-- From a process to the scheduler. -/
  | exits (i : Fin NPROC) (k : ℕ)
      (control : (m.cpu c).control = .swtch (.process i) (.scheduler c) k)
      (proc : (m.cpu c).proc = some i) (point : (m.cpu c).point = .back i)
      (state : gone (m.proc i).state) (entry : (m.proc i).point.entry)
      (saved : m.Saved (.scheduler c)) (switching : m.Switching c (.process i) (.scheduler c) k)

/-- The slot is as it was, its lock apart. -/
structure Same (a b : Proc C) : Prop where
  state : b.state = a.state
  point : b.point = a.point
  context : b.context = a.context
  switches : b.switches = a.switches

theorem Same.of_eq (h : m'.proc i = m.proc i) : Same (m.proc i) (m'.proc i) := by
  constructor <;> rw [h]

theorem saved_of_eq {t : Thread C} (hctx : m'.context t = m.context t)
    (hsw : m'.switches t = m.switches t) (hs : m.Saved t) : m'.Saved t := by
  intro r
  rw [hctx, hsw]
  exact hs r

theorem saved_proc (hctx : (m'.proc i).context = (m.proc i).context)
    (hsw : (m'.proc i).switches = (m.proc i).switches) : m.Saved (.process i) → m'.Saved (.process i) :=
  saved_of_eq hctx hsw

theorem saved_cpu (hctx : (m'.cpu c).context = (m.cpu c).context)
    (hsw : (m'.cpu c).switches = (m.cpu c).switches) :
    m.Saved (.scheduler c) → m'.Saved (.scheduler c) := saved_of_eq hctx hsw

/-- The scheduler can switch to the process. -/
abbrev Ready (m : Machine C) (i : Fin NPROC) : Prop :=
  m.Saved (.process i) ∧ (m.proc i).point.entry

theorem Same.readied (h : Same (m.proc i) (m'.proc i)) (hr : Ready m i) : Ready m' i :=
  ⟨saved_of_eq h.context h.switches hr.1, h.point ▸ hr.2⟩

/-- A new process stays one. -/
abbrev StaysNew (m m' : Machine C) (q : Fin NPROC) : Prop :=
  (m.proc q).state = .USED → (m'.proc q).state = .USED ∧ (Ready m q → Ready m' q)

theorem Same.ready (h : Same (m.proc i) (m'.proc i)) : StaysNew m m' i :=
  fun hs => ⟨h.state.trans hs, h.readied⟩

theorem field_of_others {α : Type} (f : Proc C → α) (hself : f (m'.proc p) = f (m.proc p))
    (hother : ∀ j, j ≠ p → m'.proc j = m.proc j) (j : Fin NPROC) :
    f (m'.proc j) = f (m.proc j) := by
  by_cases hj : j = p
  · rw [hj, hself]
  · rw [hother j hj]

theorem Switching.congr {old new : Thread C} {k : ℕ} (h : m.Switching c old new k)
    (hctx : m'.context old = m.context old) (hold : m'.switches old = m.switches old)
    (hnew : m'.switches new = m.switches new) (hregs : (m'.cpu c).regs = (m.cpu c).regs) :
    m'.Switching c old new k := by
  refine ⟨h.bound, fun r hr => ?_, fun r => ?_⟩
  · rw [hctx, hold]
    exact h.stored r hr
  · rw [hregs, hold, hnew]
    exact h.regs r

theorem CpuOk.congr (h : CpuOk m c) (hc : m'.cpu c = m.cpu c)
    (hp : ∀ i, (m.cpu c).proc = some i → Same (m.proc i) (m'.proc i)) : CpuOk m' c := by
  have hstack : m'.stack c = m.stack c := by rw [stack, stack, hc]
  have hctx : m'.context (.scheduler c) = m.context (.scheduler c) := congrArg Cpu.context hc
  have hsw : m'.switches (.scheduler c) = m.switches (.scheduler c) := congrArg Cpu.switches hc
  cases h with
  | idle control proc point stack =>
    exact .idle (hc ▸ control) (hc ▸ proc) (hc ▸ point) (hstack.trans stack)
  | back i control proc point stack state entry saved =>
    have hi := hp i proc
    exact .back i (hc ▸ control) (hc ▸ proc) (hc ▸ point) (hstack.trans stack)
      (hi.state ▸ state) (hi.point ▸ entry) (saved_of_eq hi.context hi.switches saved)
  | runs i control proc point stack state saved =>
    have hi := hp i proc
    refine .runs i (hc ▸ control) (hc ▸ proc) (hc ▸ point) (hstack.trans stack) ?_
      (saved_of_eq hctx hsw saved)
    rw [hi.state, hi.point]
    exact state
  | enters i k control proc point state entry saved switching =>
    have hi := hp i proc
    exact .enters i k (hc ▸ control) (hc ▸ proc) (hc ▸ point) (hi.state.trans state)
      (hi.point ▸ entry) (saved_of_eq hi.context hi.switches saved)
      (switching.congr hctx hsw hi.switches (congrArg Cpu.regs hc))
  | exits i k control proc point state entry saved switching =>
    have hi := hp i proc
    exact .exits i k (hc ▸ control) (hc ▸ proc) (hc ▸ point) (hi.state ▸ state)
      (hi.point ▸ entry) (saved_of_eq hctx hsw saved)
      (switching.congr hi.context hi.switches hsw (congrArg Cpu.regs hc))

/-! What is known of a CPU by what it executes. -/

theorem CpuOk.of_scheduler (h : CpuOk m c) (hc : (m.cpu c).control = .runs (.scheduler c')) :
    c' = c ∧ m.stack c = .scheduler c ∧ ((m.cpu c).proc = none ∧ (∀ i, (m.cpu c).point ≠ .back i) ∨
        ∃ i, (m.cpu c).proc = some i ∧ (m.cpu c).point = .back i ∧ gone (m.proc i).state ∧
          (m.proc i).point.entry ∧ m.Saved (.process i)) := by
  cases h with
  | idle control proc point stack =>
    rw [hc] at control
    exact ⟨Thread.scheduler.inj (Control.runs.inj control), stack, .inl ⟨proc, point⟩⟩
  | back i control proc point stack state entry saved =>
    rw [hc] at control
    exact ⟨Thread.scheduler.inj (Control.runs.inj control), stack,
      .inr ⟨i, proc, point, state, entry, saved⟩⟩
  | runs _ control | enters _ _ control | exits _ _ control =>
    rw [hc] at control
    cases control

theorem CpuOk.of_process (h : CpuOk m c) (hc : (m.cpu c).control = .runs (.process p)) :
    (m.cpu c).proc = some p ∧ (m.cpu c).point = .back p ∧ m.stack c = .process p ∧
      (m.proc p).state = (m.proc p).point.expects ∧ m.Saved (.scheduler c) := by
  cases h with
  | runs i control proc point stack state saved =>
    rw [hc] at control
    obtain rfl := Thread.process.inj (Control.runs.inj control)
    exact ⟨proc, point, stack, state, saved⟩
  | idle control | back _ control | enters _ _ control | exits _ _ control =>
    rw [hc] at control
    cases control

theorem CpuOk.of_swtch {old new : Thread C} {k : ℕ} (h : CpuOk m c)
    (hc : (m.cpu c).control = .swtch old new k) :
    ∃ i, (m.cpu c).proc = some i ∧ (m.cpu c).point = .back i ∧
      (m.proc i).point.entry ∧ m.Switching c old new k ∧ m.Saved new ∧
      (old = .scheduler c ∧ new = .process i ∧ (m.proc i).state = .RUNNING ∨
        old = .process i ∧ new = .scheduler c ∧ gone (m.proc i).state) := by
  cases h with
  | enters i j control proc point state entry saved switching =>
    rw [hc] at control
    obtain ⟨rfl, rfl, rfl⟩ := Control.swtch.inj control
    exact ⟨i, proc, point, entry, switching, saved, .inl ⟨rfl, rfl, state⟩⟩
  | exits i j control proc point state entry saved switching =>
    rw [hc] at control
    obtain ⟨rfl, rfl, rfl⟩ := Control.swtch.inj control
    exact ⟨i, proc, point, entry, switching, saved, .inr ⟨rfl, rfl, state⟩⟩
  | idle control | back _ control | runs _ control =>
    rw [hc] at control
    cases control

theorem CpuOk.engaged (h : CpuOk m c) (hi : (m.cpu c).proc = some i) :
    (m.proc i).state = .RUNNING ∨ gone (m.proc i).state ∧ m.held c = some i := by
  cases h with
  | idle control proc point stack =>
    rw [proc] at hi
    cases hi
  | back j control proc point stack state entry saved =>
    obtain rfl : j = i := Option.some.inj (proc.symm.trans hi)
    refine .inr ⟨state, ?_⟩
    rw [held, control, point]
    rfl
  | runs j control proc point stack state saved =>
    obtain rfl : j = i := Option.some.inj (proc.symm.trans hi)
    rw [state, held, control]
    dsimp only
    cases (m.proc j).point with
    | calls why np => exact .inr ⟨why.gone, rfl⟩
    | _ => exact .inl rfl
  | enters j k control proc point state entry saved switching =>
    obtain rfl : j = i := Option.some.inj (proc.symm.trans hi)
    exact .inl state
  | exits j k control proc point state entry saved switching =>
    obtain rfl : j = i := Option.some.inj (proc.symm.trans hi)
    refine .inr ⟨state, ?_⟩
    rw [held, control]
    exact proc

theorem CpuOk.proc_of_stack (h : CpuOk m c) (hi : m.stack c = .process i) :
    (m.cpu c).proc = some i := by
  cases h with
  | idle _ _ _ stack | back _ _ _ _ stack =>
    rw [stack] at hi
    cases hi
  | runs j control proc point stack state saved =>
    rw [stack] at hi
    rw [proc, Thread.process.inj hi]
  | enters j k control proc point state entry saved switching =>
    rw [stack, switching.regs SP] at hi
    split at hi
    · rw [proc, Thread.process.inj hi]
    · cases hi
  | exits j k control proc point state entry saved switching =>
    rw [stack, switching.regs SP] at hi
    split at hi
    · cases hi
    · rw [proc, Thread.process.inj hi]

theorem CpuOk.not_lost (h : CpuOk m c) : (m.cpu c).control ≠ .lost := by
  cases h with
  | idle control | back _ control | runs _ control | enters _ _ control | exits _ _ control =>
    rw [control]
    nofun

/-- Each new process is made by one process, and is ready when it has been set up. -/
structure Makers (m : Machine C) : Prop where
  used : ∀ p q, (m.proc p).point.making = some q → (m.proc q).state = .USED
  ready : ∀ p q, (m.proc p).point.making = some q → (m.proc p).point ≠ .allocated q →
    m.Saved (.process q) ∧ (m.proc q).point.entry
  unique : ∀ p p' q, (m.proc p).point.making = some q → (m.proc p').point.making = some q → p = p'

structure Inv (m : Machine C) : Prop where
  cpus : ∀ c, CpuOk m c
  locks : ∀ c i, (m.proc i).lock = some c ↔ m.held c = some i
  unique : ∀ c c' i, (m.cpu c).proc = some i → (m.cpu c').proc = some i → c = c'
  running : ∀ i, (m.proc i).state = .RUNNING → ∃ c, (m.cpu c).proc = some i
  parked : ∀ i, waiting (m.proc i).state → (∀ c, (m.cpu c).proc ≠ some i) →
    m.Saved (.process i) ∧ (m.proc i).point.entry
  makers : Makers m

/-- Process `p` makes no process that it did not make before. -/
abbrev MakesOnly (m m' : Machine C) (p q : Fin NPROC) : Prop :=
  (m'.proc p).point.making = some q → (m.proc p).point.making = some q ∧
    ((m'.proc p).point ≠ .allocated q → (m.proc p).point ≠ .allocated q)

theorem makesOnly_of_point (h : (m'.proc p).point = (m.proc p).point) : MakesOnly m m' p q := by
  intro hq
  rw [h] at hq ⊢
  exact ⟨hq, id⟩

theorem Makers.keep (h : Makers m) (hused : ∀ q, StaysNew m m' q)
    (hpoint : ∀ p q, MakesOnly m m' p q) : Makers m' := by
  refine ⟨fun p q hq => ?_, fun p q hq hne => ?_, fun p p' q hq hq' => ?_⟩
  · exact (hused q (h.used p q (hpoint p q hq).1)).1
  · obtain ⟨hq', hne'⟩ := hpoint p q hq
    exact (hused q (h.used p q hq')).2 (h.ready p q hq' (hne' hne))
  · exact h.unique p p' q (hpoint p q hq).1 (hpoint p' q hq').1

/-- Process `p` has to do with the new process `q`, and nobody else has. -/
theorem Makers.make (h : Makers m) (hpoint : ∀ i r, i ≠ p → MakesOnly m m' i r)
    (hslots : ∀ r, r ≠ q → StaysNew m m' r)
    (hnobody : ∀ i, i ≠ p → (m.proc i).point.making ≠ some q)
    (hp : ∀ r, (m'.proc p).point.making = some r → r = q)
    (hused : (m'.proc p).point.making = some q → (m'.proc q).state = .USED)
    (hready : (m'.proc p).point.making = some q → (m'.proc p).point ≠ .allocated q → Ready m' q) :
    Makers m' := by
  have hother (i r : Fin NPROC) (hi : i ≠ p) (hr : (m'.proc i).point.making = some r) : r ≠ q := by
    rintro rfl
    exact hnobody i hi (hpoint i r hi hr).1
  refine ⟨fun i r hr => ?_, fun i r hr hne => ?_, fun i j r hi hj => ?_⟩
  · by_cases hip : i = p
    · rw [hip] at hr
      obtain rfl := hp r hr
      exact hused hr
    · exact (hslots r (hother i r hip hr) (h.used i r (hpoint i r hip hr).1)).1
  · by_cases hip : i = p
    · rw [hip] at hr hne
      obtain rfl := hp r hr
      exact hready hr hne
    · obtain ⟨hr', hne'⟩ := hpoint i r hip hr
      exact (hslots r (hother i r hip hr) (h.used i r hr')).2 (h.ready i r hr' (hne' hne))
  · by_cases hip : i = p <;> by_cases hjp : j = p
    · rw [hip, hjp]
    · rw [hip] at hi
      exact absurd (hp r hi) (hother j r hjp hj)
    · rw [hjp] at hj
      exact absurd (hp r hj) (hother i r hip hi)
    · exact h.unique i j r (hpoint i r hip hi).1 (hpoint j r hjp hj).1

theorem Makers.same (h : Makers m) (hsame : ∀ i, Same (m.proc i) (m'.proc i)) : Makers m' :=
  h.keep (fun q => (hsame q).ready) fun p _ => makesOnly_of_point (hsame p).point

/-- Nothing has changed on the other CPUs. -/
abbrev OtherCpus (m m' : Machine C) (c : C) : Prop := ∀ c', c' ≠ c → m'.cpu c' = m.cpu c'

abbrev OtherLocks (m m' : Machine C) (c : C) : Prop :=
  ∀ i c', c' ≠ c → ((m'.proc i).lock = some c' ↔ (m.proc i).lock = some c')

/-- The CPU holds the lock of this slot and no other. -/
abbrev Holds (m : Machine C) (c : C) (o : Option (Fin NPROC)) : Prop :=
  ∀ i, (m.proc i).lock = some c ↔ o = some i

theorem ne_of_proc (hp : (m.cpu c).proc = some p) (hi : i ≠ p) : (m.cpu c).proc ≠ some i := by
  rw [hp]
  exact fun he => hi (Option.some.inj he).symm

namespace Inv

theorem advance (h : Inv m) (hcpu : OtherCpus m m' c)
    (hsame : ∀ i, Same (m.proc i) (m'.proc i) ∨ ∀ c', c' ≠ c → (m.cpu c').proc ≠ some i)
    (hok : CpuOk m' c) (hheld : Holds m' c (m'.held c)) (hlock : OtherLocks m m' c)
    (hproc : ∀ i, (m'.cpu c).proc = some i →
      (m.cpu c).proc = some i ∨ ∀ c', (m.cpu c').proc ≠ some i)
    (hrun : ∀ i, (m'.proc i).state = .RUNNING →
      (m'.cpu c).proc = some i ∨ (m.proc i).state = .RUNNING ∧ (m.cpu c).proc ≠ some i)
    (hpark : ∀ i, waiting (m'.proc i).state → (m'.cpu c).proc ≠ some i →
      Same (m.proc i) (m'.proc i) ∧ (m.cpu c).proc ≠ some i ∨ Ready m' i)
    (hmakers : Makers m') : Inv m' := by
  have hsame' (c' : C) (hc : c' ≠ c) (i : Fin NPROC) (hi : (m.cpu c').proc = some i) :
      Same (m.proc i) (m'.proc i) := (hsame i).resolve_right fun hno => hno c' hc hi
  refine ⟨fun c' => ?_, fun c' i => ?_, ?_, fun i hi => ?_, fun i hi hno => ?_, hmakers⟩
  · by_cases hc : c' = c
    · rwa [hc]
    · exact (h.cpus c').congr (hcpu c' hc) (hsame' c' hc)
  · by_cases hc : c' = c
    · rw [hc]
      exact hheld i
    · rw [hlock i c' hc, h.locks c' i, held, held, hcpu c' hc]
      -- The process on another CPU is where it was.
      cases h.cpus c' with
      | runs j control proc point stack state saved =>
        rw [control]
        dsimp only
        rw [(hsame' c' hc j proc).point]
      | idle control | back _ control | enters _ _ control | exits _ _ control => rw [control]
  · have hnew (c' : C) (hc : c' ≠ c) (i : Fin NPROC) (hi : (m.cpu c').proc = some i) :
        (m'.cpu c).proc ≠ some i := by
      intro hi'
      rcases hproc i hi' with hold | hno
      · exact hc (h.unique c' c i hi hold)
      · exact hno c' hi
    intro c1 c2 i h1 h2
    by_cases hc1 : c1 = c <;> by_cases hc2 : c2 = c
    · rw [hc1, hc2]
    · rw [hc1] at h1
      rw [hcpu c2 hc2] at h2
      exact absurd h1 (hnew c2 hc2 i h2)
    · rw [hc2] at h2
      rw [hcpu c1 hc1] at h1
      exact absurd h2 (hnew c1 hc1 i h1)
    · rw [hcpu c1 hc1] at h1
      rw [hcpu c2 hc2] at h2
      exact h.unique c1 c2 i h1 h2
  · rcases hrun i hi with hi' | ⟨hi', hne⟩
    · exact ⟨c, hi'⟩
    · obtain ⟨c', hc'⟩ := h.running i hi'
      refine ⟨c', ?_⟩
      rw [hcpu c']
      · exact hc'
      · rintro rfl
        exact hne hc'
  · rcases hpark i hi (hno c) with ⟨hi', hne⟩ | hi'
    · have hold (c' : C) : (m.cpu c').proc ≠ some i := by
        by_cases hc : c' = c
        · rwa [hc]
        · rw [← hcpu c' hc]
          exact hno c'
      exact hi'.readied (h.parked i (hi'.state ▸ hi) hold)
    · exact hi'

theorem cpuOnly (h : Inv m) (hcpu : OtherCpus m m' c) (hproc : m'.proc = m.proc)
    (hcp : (m'.cpu c).proc = (m.cpu c).proc)
    (hheld : m'.held c = m.held c) (hok : CpuOk m' c) : Inv m' := by
  have hsame (i : Fin NPROC) : Same (m.proc i) (m'.proc i) := Same.of_eq (by rw [hproc])
  refine h.advance hcpu (fun i => .inl (hsame i)) hok (fun i => ?_) (fun i c' _ => by rw [hproc])
    (fun i hi => .inl (hcp ▸ hi)) (fun i hi => ?_) (fun i hi hne => ?_) ?_
  · rw [hproc, hheld]
    exact h.locks c i
  · rw [hproc] at hi
    rw [hcp]
    exact (eq_or_ne _ _).imp_right fun hne => ⟨hi, hne⟩
  · exact .inl ⟨hsame i, hcp ▸ hne⟩
  · exact h.makers.same hsame

/-- A slot whose lock the CPU holds and whose process does not run is on no CPU. -/
theorem not_engaged (h : Inv m) (hl : (m.proc q).lock = some c) (hs : (m.proc q).state ≠ .RUNNING)
    (hc : (m.cpu c).proc ≠ some q) (c' : C) : (m.cpu c').proc ≠ some q := by
  intro hc'
  rcases (h.cpus c').engaged hc' with hrun | ⟨-, hheld⟩
  · exact hs hrun
  · have hl' := (h.locks c' q).mpr hheld
    obtain rfl : c = c' := Option.some.inj (hl.symm.trans hl')
    exact hc hc'

/-- A process that has left its CPU, with its lock free, is on no CPU. -/
theorem off_cpu (h : Inv m) (hl : (m.proc p).lock = none) (hs : gone (m.proc p).state) (c : C) :
    (m.cpu c).proc ≠ some p := by
  intro hp
  rcases (h.cpus c).engaged hp with hrun | ⟨-, hheld⟩
  · rw [hrun] at hs
    exact hs
  · rw [← h.locks c p, hl] at hheld
    cases hheld

end Inv

theorem Inv.lock_iff (h : Inv m) (hc : (m.cpu c).control = .runs (.process p)) (i : Fin NPROC) :
    (m.proc i).lock = some c ↔ (m.proc p).point.held p = some i := by
  rw [h.locks c i, held, hc]

theorem Inv.own (h : Inv m) (hp : (m.cpu c).proc = some p) (hcpu : OtherCpus m m' c)
    (hcp : (m'.cpu c).proc = some p) (hothers : ∀ i, i ≠ p → Same (m.proc i) (m'.proc i))
    (hused : (m.proc p).state ≠ .USED) (hok : CpuOk m' c) (hheld : Holds m' c (m'.held c))
    (hlock : OtherLocks m m' c) (hmaking : ∀ q, MakesOnly m m' p q) : Inv m' := by
  refine h.advance (c := c) hcpu (fun i => ?_) hok hheld hlock (fun i hi => .inl ?_) (fun i hi => ?_)
    (fun i hi hi' => ?_) ?_
  · by_cases hi : i = p
    · rw [hi]
      exact .inr fun c' hc' hi' => hc' (h.unique c' c p hi' hp)
    · exact .inl (hothers i hi)
  · rwa [hp, ← hcp]
  · by_cases hip : i = p
    · rw [hip]
      exact .inl hcp
    · rw [(hothers i hip).state] at hi
      exact .inr ⟨hi, ne_of_proc hp hip⟩
  · have hip : i ≠ p := by
      rintro rfl
      exact hi' hcp
    exact .inl ⟨hothers i hip, ne_of_proc hp hip⟩
  · refine h.makers.keep (fun q hq => ?_) fun r q => ?_
    · refine (hothers q ?_).ready hq
      rintro rfl
      exact hused hq
    · by_cases hrp : r = p
      · rw [hrp]
        exact hmaking q
      · exact makesOnly_of_point (hothers r hrp).point

section
variable (h : Inv m) (hc : (m.cpu c).control = .runs (.process p))
include h hc

/-- The process stays on the CPU. -/
theorem Inv.runs (hcpu : m'.cpu = m.cpu) (hstate : (m'.proc p).state = (m'.proc p).point.expects) :
    CpuOk m' c := by
  obtain ⟨hp, hpoint, hstack, -, hsaved⟩ := (h.cpus c).of_process hc
  have hself := congrFun hcpu c
  refine .runs p (by rw [hcpu]; exact hc) (by rw [hcpu]; exact hp) (by rw [hcpu]; exact hpoint) ?_ hstate
    (saved_cpu (by rw [hself]) (by rw [hself]) hsaved)
  rw [stack, hcpu]
  exact hstack

theorem Inv.moves (hcpu : m'.cpu = m.cpu) (hothers : ∀ i, i ≠ p → Same (m.proc i) (m'.proc i))
    (hstate : (m'.proc p).state = (m'.proc p).point.expects)
    (hheld : Holds m' c ((m'.proc p).point.held p)) (hlock : OtherLocks m m' c)
    (hmaking : ∀ q, (m'.proc p).point.making = some q → (m.proc p).point.making = some q ∧
      (m.proc p).point ≠ .allocated q) : Inv m' := by
  obtain ⟨hp, -, -, hs, -⟩ := (h.cpus c).of_process hc
  refine h.own hp (fun c' _ => by rw [hcpu]) (by rw [hcpu, hp]) hothers ?_ (h.runs hc hcpu hstate)
    (fun i => ?_) hlock fun q hq => ⟨(hmaking q hq).1, fun _ => (hmaking q hq).2⟩
  · rw [hs]
    exact (m.proc p).point.expects_ne_used
  · rw [hheld i, held, hcpu, hc]

theorem Inv.not_self
    (hexp : (m.proc p).point.expects = .RUNNING) (hq : (m.proc q).state ≠ .RUNNING) : q ≠ p := by
  rintro rfl
  obtain ⟨-, -, -, hs, -⟩ := (h.cpus c).of_process hc
  exact hq (hs.trans hexp)

/-- The process on a CPU changes a slot whose lock it holds and whose process does not run. -/
theorem Inv.acts (hcpu : m'.cpu = m.cpu)
    (hexp : (m.proc p).point.expects = .RUNNING) (hl : (m.proc q).lock = some c)
    (hq : (m.proc q).state ≠ .RUNNING) (hothers : ∀ i, i ≠ p → i ≠ q → Same (m.proc i) (m'.proc i))
    (hrun : (m'.proc p).state = .RUNNING) (hexp' : (m'.proc p).point.expects = .RUNNING)
    (hlock : ∀ i, (m'.proc i).lock = (m.proc i).lock)
    (hheld : (m'.proc p).point.held p = (m.proc p).point.held p)
    (hq' : (m'.proc q).state ≠ .RUNNING)
    (hready : waiting (m'.proc q).state → Ready m' q) (hmakers : Makers m') : Inv m' := by
  obtain ⟨hp, -⟩ := (h.cpus c).of_process hc
  have hqp : q ≠ p := h.not_self hc hexp hq
  have hcp : (m'.cpu c).proc = some p := by rw [hcpu, hp]
  have hnone := h.not_engaged hl hq (ne_of_proc hp hqp)
  refine h.advance (c := c) (fun c' _ => by rw [hcpu]) (fun i => ?_)
    (h.runs hc hcpu (hrun.trans hexp'.symm)) (fun i => ?_) (fun i c' _ => by rw [hlock i])
    (fun i hi => .inl ?_) (fun i hi => ?_) (fun i hi hne => ?_) hmakers
  · by_cases hip : i = p
    · rw [hip]
      exact .inr fun c' hc' hi' => hc' (h.unique c' c p hi' hp)
    · by_cases hiq : i = q
      · rw [hiq]
        exact .inr fun c' _ => hnone c'
      · exact .inl (hothers i hip hiq)
  · rw [hlock i, h.lock_iff hc i, held, hcpu, hc]
    dsimp only
    rw [hheld]
  · rwa [hcpu] at hi
  · by_cases hip : i = p
    · rw [hip]
      exact .inl hcp
    · have hiq : i ≠ q := by
        rintro rfl
        exact hq' hi
      rw [(hothers i hip hiq).state] at hi
      exact .inr ⟨hi, ne_of_proc hp hip⟩
  · have hip : i ≠ p := by
      rintro rfl
      exact hne hcp
    by_cases hiq : i = q
    · rw [hiq] at hi ⊢
      exact .inr (hready hi)
    · exact .inl ⟨hothers i hip hiq, ne_of_proc hp hip⟩

end

/-- The scheduler goes on between processes. -/
theorem Inv.idles {x : SchedPoint} (h : Inv m) (hc : (m.cpu c).control = .runs (.scheduler c))
    (hp : (m.cpu c).proc = none) (hstack : m.stack c = .scheduler c) (hcpu : OtherCpus m m' c)
    (hself : m'.cpu c = { m.cpu c with point := x }) (hx : ∀ i, x ≠ .back i)
    (hsame : ∀ i, Same (m.proc i) (m'.proc i)) (hheld : Holds m' c x.held)
    (hlock : OtherLocks m m' c) : Inv m' := by
  have hp' : (m'.cpu c).proc = none := by rw [hself, hp]
  have hc' : (m'.cpu c).control = .runs (.scheduler c) := by rw [hself, hc]
  have hnone (i : Fin NPROC) : (m.cpu c).proc ≠ some i := by
    rw [hp]
    nofun
  refine h.advance hcpu (fun i => .inl (hsame i)) (.idle hc' hp' ?_ ?_) (fun i => ?_) hlock
    (fun i hi => ?_) (fun i hi => .inr ⟨(hsame i).state ▸ hi, hnone i⟩)
    (fun i _ _ => .inl ⟨hsame i, hnone i⟩) (h.makers.same hsame)
  · rw [hself]
    exact hx
  · rw [stack, hself]
    exact hstack
  · rw [hheld i, held, hc', hself]
  · rw [hp'] at hi
    cases hi

/-! The start. -/

structure Start (m : Machine C) : Prop where
  control : ∀ c, (m.cpu c).control = .runs (.scheduler c)
  proc : ∀ c, (m.cpu c).proc = none
  point : ∀ c, ∃ i, (m.cpu c).point = .scan i
  stack : ∀ c, m.stack c = .scheduler c
  lock : ∀ p, (m.proc p).lock = none
  idle : ∀ p, (m.proc p).state ≠ .RUNNING
  ready : ∀ p, waiting (m.proc p).state → m.Saved (.process p) ∧ (m.proc p).point.entry
  making : ∀ p, (m.proc p).point.making = none

theorem Start.inv (h : Start m) : Inv m := by
  have hmaking (p q : Fin NPROC) : (m.proc p).point.making ≠ some q := by
    rw [h.making p]
    nofun
  refine ⟨fun c => ?_, fun c i => ?_, fun c c' i hi => ?_, fun i hi => absurd hi (h.idle i),
    fun i hi _ => h.ready i hi, ⟨fun p q hq => absurd hq (hmaking p q),
      fun p q hq => absurd hq (hmaking p q), fun p p' q hq => absurd hq (hmaking p q)⟩⟩
  · obtain ⟨i, hi⟩ := h.point c
    refine .idle (h.control c) (h.proc c) ?_ (h.stack c)
    rw [hi]
    nofun
  · obtain ⟨j, hj⟩ := h.point c
    rw [h.lock i, held, h.control c, hj]
    exact ⟨nofun, nofun⟩
  · rw [h.proc c] at hi
    cases hi

def boot (C : Type) : Machine C where
  cpu c :=
    { control := .runs (.scheduler c)
      proc := none
      point := .scan 0
      context := fun _ => ⟨.scheduler c, 0⟩
      switches := 0
      regs := fun _ => ⟨.scheduler c, 0⟩ }
  proc p :=
    { lock := none
      state := if p = 0 then .RUNNABLE else .UNUSED
      point := .forkret
      context := fun _ => ⟨.process p, 0⟩
      switches := 0 }

theorem boot_start : Start (boot C) where
  control _ := rfl
  proc _ := rfl
  point _ := ⟨0, rfl⟩
  stack _ := rfl
  lock _ := rfl
  idle p := by
    change (if p = 0 then ProcState.RUNNABLE else .UNUSED) ≠ .RUNNING
    split <;> nofun
  ready p _ := ⟨fun _ => rfl, trivial⟩
  making _ := rfl

/-! What the updates leave as it is. -/

theorem setState_eq (m : Machine C) (p : Fin NPROC) : m.setState p (m.proc p).state = m := by
  rw [setState, setProc, update_eq_self]

theorem acquire_cpu {m1 : Machine C} (h : m.acquire c i = some m1) : m1.cpu = m.cpu := by
  obtain ⟨-, he⟩ := Option.ite_none_right_eq_some.mp h
  cases he
  rfl

theorem visit_cpu {v : Visit} {np : Option (Fin NPROC)} {ok : Bool} :
    (m.stepVisit p q np ok v).cpu = m.cpu := by
  cases v <;> rw [stepVisit] <;> split <;> rfl

@[simp] theorem setProc_self (m : Machine C) (p : Fin NPROC) (f : Proc C → Proc C) :
    (m.setProc p f).proc p = f (m.proc p) := update_self ..

theorem setProc_of_ne (m : Machine C) (h : q ≠ p) (f : Proc C → Proc C) :
    (m.setProc p f).proc q = m.proc q := update_of_ne h ..

@[simp] theorem setProc_cpu (m : Machine C) (p : Fin NPROC) (f : Proc C → Proc C) :
    (m.setProc p f).cpu = m.cpu := rfl

abbrev setLock (m : Machine C) (i : Fin NPROC) (l : Option C) : Machine C :=
  m.setProc i fun pr => { pr with lock := l }

theorem same_setLock (m : Machine C) (i : Fin NPROC) (l : Option C) (j : Fin NPROC) :
    Same (m.proc j) ((m.setLock i l).proc j) := by
  by_cases hj : j = i
  · subst hj
    constructor <;> rw [setProc_self]
  · exact .of_eq (setProc_of_ne m hj _)

theorem lock_setLock (m : Machine C) (i : Fin NPROC) (l : Option C) (j : Fin NPROC) :
    ((m.setLock i l).proc j).lock = if j = i then l else (m.proc j).lock := by
  split_ifs with hj
  · rw [hj, setProc_self]
  · rw [setProc_of_ne m hj]

theorem setPoint_self (m : Machine C) (p : Fin NPROC) (x : ProcPoint) :
    (m.setPoint p x).proc p = { m.proc p with point := x } := setProc_self ..

theorem setPoint_of_ne (m : Machine C) (hi : i ≠ p) (x : ProcPoint) :
    (m.setPoint p x).proc i = m.proc i := setProc_of_ne m hi _

theorem acquire_state {m1 : Machine C} (h : m.acquire c i = some m1)
    (q : Fin NPROC) : (m1.proc q).state = (m.proc q).state := by
  obtain ⟨-, he⟩ := Option.ite_none_right_eq_some.mp h
  cases he
  by_cases hq : q = i
  · rw [hq, setProc_self]
  · rw [setProc_of_ne _ hq]

section
variable [DecidableEq C]

@[simp] theorem setCpu_cpu_self (m : Machine C) (c : C) (f : Cpu C → Cpu C) :
    (m.setCpu c f).cpu c = f (m.cpu c) := update_self ..

theorem setCpu_cpu_of_ne (m : Machine C) (h : c' ≠ c) (f : Cpu C → Cpu C) :
    (m.setCpu c f).cpu c' = m.cpu c' := update_of_ne h ..

@[simp] theorem setCpu_proc (m : Machine C) (c : C) (f : Cpu C → Cpu C) :
    (m.setCpu c f).proc = m.proc := rfl

end
end Machine
end Xv6.Cpus
