import Xv6.ProcTable

/-! CPUs, their scheduler threads and the kernel threads of processes, kernel/proc.c and
kernel/swtch.S. A spin lock belongs to the CPU that took it. What the functions read apart from
`p->state` (channels, pids, parents, memory) is left open: a `Choice` says what they find. A panic
is a step that is not possible. -/
namespace Xv6.Cpus
open Function

/-- What a CPU can execute: its scheduler, or a process in the kernel. -/
inductive Thread (C : Type) where
  | scheduler (c : C) | process (p : Fin NPROC)
  deriving DecidableEq

/-- The registers that `swtch` saves and restores: `ra`, `sp` and `s0` to `s11`. -/
abbrev REGS : ℕ := 14
abbrev SP : Fin REGS := 1

/-- The value that a register had at one of the switches of a thread. -/
structure Reg (C : Type) where
  thread : Thread C
  switch : ℕ
  deriving DecidableEq

/-- `struct context`. -/
abbrev Context (C : Type) := Fin REGS → Reg C

/-- Where `scheduler` is: before `acquire`; with `p->lock`; after `swtch`; before `release`. -/
inductive SchedPoint where
  | scan (i : Fin NPROC) | found (i : Fin NPROC) | back (i : Fin NPROC) | done (i : Fin NPROC)

/-- Why a process calls `sched`. -/
inductive Leave where
  | yield | sleep | exit
  deriving DecidableEq

def Leave.state : Leave → ProcState
  | .yield => .RUNNABLE
  | .sleep => .SLEEPING
  | .exit => .ZOMBIE

/-- Why a process looks at a slot. -/
inductive Visit where
  | wakeup | kkill | kwait | allocproc
  deriving DecidableEq

/-- Where a process is in its kernel code. In `kfork`, `np` is the new process. -/
inductive ProcPoint where
  /-- It holds no `p->lock`. -/
  | kernel (np : Option (Fin NPROC))
  /-- It holds the lock of the slot, before and after what it does there. -/
  | visits (v : Visit) (q : Fin NPROC) (np : Option (Fin NPROC))
  | seen (q : Fin NPROC) (np : Option (Fin NPROC))
  /-- In `allocproc`, with a slot that is `USED`; in `kfork`, after `allocproc`. -/
  | allocated (q : Fin NPROC) | created (q : Fin NPROC)
  /-- In `kfork`, with the lock of the new process in order to make it `RUNNABLE`. -/
  | enables (q : Fin NPROC)
  /-- It holds its own lock: before it changes its state; in `sched`; after `swtch`. -/
  | leaves (why : Leave) (np : Option (Fin NPROC))
  | calls (why : Leave) (np : Option (Fin NPROC))
  | resumed (why : Leave) (np : Option (Fin NPROC))
  /-- The first thing that a new process does. -/
  | forkret

/-- What a CPU is doing. -/
inductive Control (C : Type) where
  | runs (t : Thread C)
  /-- In `swtch(old, new)`, after `k` of its stores and loads. -/
  | swtch (old new : Thread C) (k : ℕ)
  /-- It has returned from `swtch` with registers that do not belong together. -/
  | lost

structure Cpu (C : Type) where
  control : Control C
  /-- `c->proc` -/
  proc : Option (Fin NPROC)
  point : SchedPoint
  context : Context C
  /-- How often the scheduler has called `swtch`. -/
  switches : ℕ
  regs : Context C

structure Proc (C : Type) where
  lock : Option C
  state : ProcState
  point : ProcPoint
  context : Context C
  /-- How often the process has called `swtch`; being made counts as well. -/
  switches : ℕ

structure Machine (C : Type) where
  cpu : C → Cpu C
  proc : Fin NPROC → Proc C

inductive Action where
  | leave (why : Leave) | visit (v : Visit) (q : Fin NPROC) | enable
  deriving DecidableEq

inductive Choice where
  | act (a : Action)
  /-- Whether an allocation or a copy succeeds, or a channel, a pid or a parent matches. -/
  | succeeds (ok : Bool)
  deriving DecidableEq

namespace Machine

variable {C : Type} [DecidableEq C]

def setCpu (m : Machine C) (c : C) (f : Cpu C → Cpu C) : Machine C :=
  { m with cpu := update m.cpu c (f (m.cpu c)) }

def setProc (m : Machine C) (p : Fin NPROC) (f : Proc C → Proc C) : Machine C :=
  { m with proc := update m.proc p (f (m.proc p)) }

def context (m : Machine C) : Thread C → Context C
  | .scheduler c => (m.cpu c).context
  | .process p => (m.proc p).context

def switches (m : Machine C) : Thread C → ℕ
  | .scheduler c => (m.cpu c).switches
  | .process p => (m.proc p).switches

def stack (m : Machine C) (c : C) : Thread C := ((m.cpu c).regs SP).thread

/-- The context of a thread is all of what its last switch has saved. -/
def Saved (m : Machine C) (t : Thread C) : Prop := ∀ r, m.context t r = ⟨t, m.switches t⟩

def acquire (m : Machine C) (c : C) (q : Fin NPROC) : Option (Machine C) :=
  if (m.proc q).lock = none then some (m.setProc q fun pr => { pr with lock := some c }) else none

def release (m : Machine C) (c : C) (q : Fin NPROC) : Option (Machine C) :=
  if (m.proc q).lock = some c then some (m.setProc q fun pr => { pr with lock := none }) else none

def setPoint (m : Machine C) (p : Fin NPROC) (x : ProcPoint) : Machine C :=
  m.setProc p fun pr => { pr with point := x }

def setState (m : Machine C) (p : Fin NPROC) (state : ProcState) : Machine C :=
  m.setProc p fun pr => { pr with state := state }

def setSched (m : Machine C) (c : C) (x : SchedPoint) : Machine C :=
  m.setCpu c fun cp => { cp with point := x }

/-- The thread `old` calls `swtch(old, new)`: its registers are now those of another switch. -/
def callSwtch (m : Machine C) (c : C) (old new : Thread C) : Machine C :=
  let m := match old with
    | .scheduler c' => m.setCpu c' fun cp => { cp with switches := cp.switches+1 }
    | .process p => m.setProc p fun pr => { pr with switches := pr.switches+1 }
  m.setCpu c fun cp =>
    { cp with control := .swtch old new 0, regs := fun _ => ⟨old, m.switches old⟩ }

def store (m : Machine C) (c : C) (t : Thread C) (r : Fin REGS) : Machine C :=
  match t with
  | .scheduler c' => m.setCpu c' fun cp =>
      { cp with context := update cp.context r ((m.cpu c).regs r) }
  | .process p => m.setProc p fun pr =>
      { pr with context := update pr.context r ((m.cpu c).regs r) }

def load (m : Machine C) (c : C) (t : Thread C) (r : Fin REGS) : Machine C :=
  m.setCpu c fun cp => { cp with regs := update cp.regs r (m.context t r) }

/-- `ret`: the thread goes on whose registers these are, if they are those of its last switch. -/
def ret (m : Machine C) (c : C) : Machine C :=
  let reg := (m.cpu c).regs SP
  m.setCpu c fun cp => { cp with control :=
    if (∀ r, cp.regs r = reg) ∧ reg.switch = m.switches reg.thread then .runs reg.thread else .lost }

def stepSwtch (m : Machine C) (c : C) (old new : Thread C) (k : ℕ) : Machine C :=
  if h : k < REGS then
    (m.store c old ⟨k, h⟩).setCpu c fun cp => { cp with control := .swtch old new (k+1) }
  else if h : k-REGS < REGS then
    (m.load c new ⟨k-REGS, h⟩).setCpu c fun cp => { cp with control := .swtch old new (k+1) }
  else m.ret c

/-- `for(p = proc; p < &proc[NPROC]; p++)`, again and again. -/
def nextSlot (i : Fin NPROC) : Fin NPROC := ⟨(i.val+1)%NPROC, Nat.mod_lt _ (by decide)⟩

def stepScheduler (m : Machine C) (c : C) : SchedPoint → Option (Machine C)
  | .scan i => (m.acquire c i).map (·.setSched c (.found i))
  | .found i =>
    if (m.proc i).state = .RUNNABLE then
      let m := (m.setState i .RUNNING).setCpu c fun cp =>
        { cp with proc := some i, point := .back i }
      some (m.callSwtch c (.scheduler c) (.process i))
    else some (m.setSched c (.done i))
  | .back i => some (m.setCpu c fun cp => { cp with proc := none, point := .done i })
  | .done i => (m.release c i).map (·.setSched c (.scan (nextSlot i)))

/-- What a process does to a slot that it visits; `p` is the process. -/
def stepVisit (m : Machine C) (p : Fin NPROC) (q : Fin NPROC) (np : Option (Fin NPROC))
    (ok : Bool) : Visit → Machine C
  | .wakeup | .kkill =>
    if ok ∧ (m.proc q).state = .SLEEPING then (m.setState q .RUNNABLE).setPoint p (.seen q np)
    else m.setPoint p (.seen q np)
  | .kwait =>
    if ok ∧ (m.proc q).state = .ZOMBIE then (m.setState q .UNUSED).setPoint p (.seen q np)
    else m.setPoint p (.seen q np)
  | .allocproc =>
    if (m.proc q).state = .UNUSED then (m.setState q .USED).setPoint p (.allocated q)
    else m.setPoint p (.seen q np)

/-- The process `p` starts on one of its sections; `self` is `myproc()`. In the middle of `kfork`
it can only be interrupted. -/
def stepKernel (m : Machine C) (c : C) (p self : Fin NPROC) (np : Option (Fin NPROC)) :
    Action → Option (Machine C)
  | .leave why =>
    if np = none ∨ why matches .yield then
      (m.acquire c self).map (·.setPoint p (.leaves why np))
    else none
  | .visit v q =>
    if (np = none ∨ v matches .wakeup) ∧ ¬(v matches .wakeup ∧ q = self) then
      (m.acquire c q).map (·.setPoint p (.visits v q np))
    else none
  | .enable =>
    match np with
    | some q => (m.acquire c q).map (·.setPoint p (.enables q))
    | none => none

def stepProcess (m : Machine C) (c : C) (p self : Fin NPROC) (choice : Choice) :
    ProcPoint → Option (Machine C)
  | .kernel np =>
    match choice with
    | .act a => m.stepKernel c p self np a
    | .succeeds _ => none
  | .visits v q np =>
    match choice with
    | .succeeds ok => some (m.stepVisit p q np ok v)
    | .act _ => none
  | .seen q np => (m.release c q).map (·.setPoint p (.kernel np))
  | .allocated q =>
    match choice with
    | .succeeds true =>
      -- `p->context.ra = forkret`
      some ((m.setProc q fun pr => { pr with
        point := .forkret
        context := fun _ => ⟨.process q, pr.switches+1⟩
        switches := pr.switches+1 }).setPoint p (.created q))
    | .succeeds false => some ((m.setState q .UNUSED).setPoint p (.seen q none))
    | .act _ => none
  | .created q =>
    match choice with
    | .succeeds true => (m.release c q).map (·.setPoint p (.kernel (some q)))
    | .succeeds false => some ((m.setState q .UNUSED).setPoint p (.seen q none))
    | .act _ => none
  | .enables q => some ((m.setState q .RUNNABLE).setPoint p (.seen q none))
  | .leaves why np => some ((m.setState self why.state).setPoint p (.calls why np))
  | .calls why np =>
    if (m.proc self).lock = some c ∧ (m.proc self).state ≠ .RUNNING then
      some ((m.setPoint p (.resumed why np)).callSwtch c (.process self) (.scheduler c))
    else none
  | .resumed why np =>
    if why matches .exit then none else (m.release c self).map (·.setPoint p (.kernel np))
  | .forkret => (m.release c self).map (·.setPoint p (.kernel none))

def step (m : Machine C) (c : C) (choice : Choice) : Option (Machine C) :=
  match (m.cpu c).control with
  | .runs (.scheduler c') => m.stepScheduler c (m.cpu c').point
  | .runs (.process p) =>
    match (m.cpu c).proc with
    | some self => m.stepProcess c p self choice (m.proc p).point
    | none => none
  | .swtch old new k => some (m.stepSwtch c old new k)
  | .lost => none

def run (m : Machine C) : List (C × Choice) → Option (Machine C)
  | [] => some m
  | (c, choice) :: schedule => (m.step c choice).bind (run · schedule)

end Machine
end Xv6.Cpus
