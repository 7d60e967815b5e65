import Xv6.ProcTable

/-! Interrupts and spin locks, kernel/spinlock.c, with the switches of `sched` and `scheduler` in
kernel/proc.c and the interrupts that come in between. A thread takes and gives back locks as it
likes, as long as it gives back only what it has. `swtch` is one step here. -/
namespace Xv6.Interrupts

/-- The fields of `struct cpu` that the functions use, and the `SIE` bit of `sstatus`. -/
structure Cpu where
  noff : ℕ
  intena : Bool
  sie : Bool
  deriving DecidableEq

def Cpu.pushOff (k : Cpu) (old : Bool) : Cpu where
  noff := k.noff+1
  intena := if k.noff = 0 then old else k.intena
  sie := false

def Cpu.popOff (k : Cpu) : Except String Cpu :=
  if k.sie then .error "pop_off - interruptible"
  else if k.noff < 1 then .error "pop_off"
  else .ok { k with noff := k.noff-1, sie := if k.noff-1 = 0 ∧ k.intena = true then true else k.sie }

inductive Thread (C P : Type) where
  | scheduler (c : C)
  | process (p : P)
  deriving DecidableEq

inductive Lock (P L : Type) where
  | proc (p : P)
  | other (l : L)
  deriving DecidableEq

/-- Where a thread is. -/
inductive Point (K : Type) where
  /-- Between the calls of these functions. -/
  | idle
  /-- In the `push_off` of `acquire(l)`, which has read that the bit is `old`. -/
  | pushing (l : K) (old : Bool)
  /-- In the loop of `acquire(l)`. -/
  | spinning (l : K)
  /-- Before the `pop_off` of `release`. -/
  | releasing
  /-- In `swtch`, called by `sched` with this value of its variable `intena`. -/
  | switched (intena : Bool)
  /-- After it. -/
  | resumed (intena : Bool)
  /-- A process that has not run. -/
  | fresh
  deriving DecidableEq

structure Local (K : Type) where
  point : Point K
  held : List K
  /-- What the bit was when the thread last went from no lock to one. -/
  before : Option Bool
  /-- Where it was when the interrupts came that it is handling. -/
  frames : List (Point K)

variable (C P L : Type)

structure Machine where
  cpu : C → Cpu
  cur : C → Thread C P
  /-- The `cpu` field of a lock that is locked. -/
  owner : Lock P L → Option C
  thread : Thread C P → Local (Lock P L)
  state : P → ProcState
  /-- History: the processes that went from one lock to none, with what the bit was before they had
  a lock and what it is after. -/
  log : List (P × Bool × Bool)

inductive Act where
  /-- The first statement of `push_off`, in `acquire`. -/
  | read (l : Lock P L)
  /-- The rest of it. -/
  | disable
  /-- The test-and-set of `acquire`. -/
  | spin
  /-- `release` as far as `pop_off`. -/
  | release (l : Lock P L)
  | popOff
  /-- `intr_on` or `intr_off`, a trap from user space, or a return to it. -/
  | setIntr (on : Bool)
  | interrupt
  /-- The return from an interrupt. -/
  | sret
  /-- A process that is not running gets another state, under its lock. -/
  | setState (p : P) (state : ProcState)
  /-- A process sets its state and calls `sched`. -/
  | sched (state : ProcState)
  /-- The last statement of `sched`. -/
  | restore
  /-- The scheduler switches to a process. -/
  | dispatch (p : P)
  deriving DecidableEq

variable {C P L}

/-- How the state of a process changes that is not running: in `wakeup` and `kkill`, `allocproc`,
`kfork`, and `freeproc`. -/
def mayBecome : ProcState → ProcState → Bool
  | .SLEEPING, .RUNNABLE => true
  | .UNUSED, .USED => true
  | .USED, .RUNNABLE => true
  | .USED, .UNUSED => true
  | .ZOMBIE, .UNUSED => true
  | _, _ => false

/-- What a process may become when it calls `sched`. -/
def mayLeave : ProcState → Bool
  | .RUNNABLE | .SLEEPING | .ZOMBIE => true
  | _ => false

def unborn (K : Type) : Local K := ⟨.fresh, [], none, []⟩

def Point.interruptible {K : Type} : Point K → Bool
  | .idle | .pushing _ _ => true
  | _ => false

namespace Machine

variable [DecidableEq C] [DecidableEq P] [DecidableEq L]

def setCpu (m : Machine C P L) (c : C) (k : Cpu) : Machine C P L :=
  { m with cpu := Function.update m.cpu c k }

def setThread (m : Machine C P L) (t : Thread C P) (x : Local (Lock P L)) : Machine C P L :=
  { m with thread := Function.update m.thread t x }

def setOwner (m : Machine C P L) (l : Lock P L) (c : Option C) : Machine C P L :=
  { m with owner := Function.update m.owner l c }

/-- `swtch` from one thread to another, which goes on with the lock. -/
def swtch (m : Machine C P L) (c : C) (old new : Thread C P) (x y : Point (Lock P L)) :
    Machine C P L :=
  let held := (m.thread old).held
  let m := m.setThread old { m.thread old with point := x, held := [] }
  let m := m.setThread new { m.thread new with point := y, held }
  { m with cur := Function.update m.cur c new }

def note (m : Machine C P L) (t : Thread C P) (sie : Bool) : List (P × Bool × Bool) :=
  match t, (m.thread t).held, (m.thread t).before with
  | .process p, [], some b => m.log ++ [(p, b, sie)]
  | _, _, _ => m.log

def interrupt (m : Machine C P L) (c : C) : Machine C P L :=
  let x := m.thread (m.cur c)
  if (m.cpu c).sie ∧ x.point.interruptible then
    (m.setCpu c { m.cpu c with sie := false }).setThread (m.cur c)
      { x with point := .idle, frames := x.point :: x.frames }
  else m

/-- One step of CPU `c`. What the thread cannot do changes nothing; an error is a panic. -/
def step (m : Machine C P L) (c : C) (a : Act P L) : Except String (Machine C P L) :=
  let t := m.cur c
  let k := m.cpu c
  let x := m.thread t
  match a, x.point with
  | .read l, .idle =>
    if l ∉ x.held then .ok (m.setThread t { x with point := .pushing l k.sie }) else .ok m
  | .disable, .pushing l old =>
    if m.owner l = some c then .error "acquire"
    else
      let before := if x.held = [] then some k.sie else x.before
      .ok ((m.setCpu c (k.pushOff old)).setThread t { x with point := .spinning l, before })
  | .spin, .spinning l =>
    if m.owner l = none then
      .ok ((m.setOwner l (some c)).setThread t { x with point := .idle, held := l :: x.held })
    else .ok m
  | .release l, .idle =>
    if l ∈ x.held then
      if m.owner l ≠ some c then .error "release"
      else
        .ok ((m.setOwner l none).setThread t { x with point := .releasing, held := x.held.erase l })
    else .ok m
  | .popOff, .releasing =>
    match k.popOff with
    | .error e => .error e
    | .ok k =>
      .ok { (m.setCpu c k).setThread t { x with point := .idle } with log := m.note t k.sie }
  | .setIntr on, .idle => if x.held = [] then .ok (m.setCpu c { k with sie := on }) else .ok m
  | .interrupt, _ => .ok (m.interrupt c)
  | .sret, .idle =>
    match x.held, x.frames with
    | [], point :: frames =>
      .ok ((m.setCpu c { k with sie := true }).setThread t { x with point, frames })
    | _, _ => .ok m
  | .setState p state, .idle =>
    if .proc p ∈ x.held ∧ mayBecome (m.state p) state then
      let m := { m with state := Function.update m.state p state }
      if state = .USED then .ok (m.setThread (.process p) (unborn _)) else .ok m
    else .ok m
  | .sched state, .idle =>
    match t with
    | .process p =>
      if x.held = [.proc p] ∧ mayLeave state then
        if m.owner (.proc p) ≠ some c then .error "sched p->lock"
        else if k.noff ≠ 1 then .error "sched locks"
        else if k.sie then .error "sched interruptible"
        else
          .ok { m.swtch c t (.scheduler c) (.switched k.intena) .idle with
            state := Function.update m.state p state }
      else .ok m
    | .scheduler _ => .ok m
  | .restore, .resumed intena =>
    .ok ((m.setCpu c { k with intena }).setThread t { x with point := .idle })
  | .dispatch p, .idle =>
    match t with
    | .scheduler _ =>
      if x.held = [.proc p] ∧ x.frames = [] ∧ m.state p = .RUNNABLE then
        let point :=
          match (m.thread (.process p)).point with
          | .switched intena => .resumed intena
          | _ => .idle
        .ok { m.swtch c t (.process p) .idle point with
          state := Function.update m.state p .RUNNING }
      else .ok m
    | .process _ => .ok m
  | _, _ => .ok m

def run (m : Machine C P L) : List (C × Act P L) → Except String (Machine C P L)
  | [] => .ok m
  | (c, a) :: rest =>
    match m.step c a with
    | .error e => .error e
    | .ok m => m.run rest

def boot (sie : C → Bool) (first : P → Bool) : Machine C P L where
  cpu := fun c => ⟨0, false, sie c⟩
  cur := .scheduler
  owner := fun _ => none
  thread
    | .scheduler _ => ⟨.idle, [], none, []⟩
    | .process _ => unborn _
  state := fun p => if first p then .RUNNABLE else .UNUSED
  log := []

end Machine

end Xv6.Interrupts
