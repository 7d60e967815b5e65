import Xv6.InterruptState

/-! What `noff`, `intena` and the interrupt bit of a CPU have to do with the thread that it
executes. -/
namespace Xv6.Interrupts

open Function (update update_self update_of_ne update_eq_self)

variable {C P L : Type}

/-- The lock that a thread is taking or giving back has been counted already, or is still. -/
def Point.pending {K : Type} : Point K → ℕ
  | .spinning _ | .releasing => 1
  | _ => 0

/-- What goes with a point of the thread that a CPU executes. -/
def PointOk {K : Type} (k : Cpu) (x : Local K) : Prop :=
  match x.point with
  | .idle | .releasing => True
  | .pushing l old => old = k.sie ∧ l ∉ x.held
  | .spinning l => l ∉ x.held
  | .resumed intena => x.held ≠ [] ∧ ∀ b, x.before = some b → intena = b
  | .switched _ | .fresh => False

def Thread.IsProcess : Thread C P → Prop
  | .scheduler _ => False
  | .process _ => True

/-- A CPU with the thread that it executes. The schedulers share `intena` with the processes, so
that it means something to a process only. -/
structure CpuOk {K : Type} (k : Cpu) (t : Thread C P) (x : Local K) : Prop where
  noff : k.noff = x.held.length+x.point.pending
  off : 0 < k.noff → k.sie = false
  nodup : x.held.Nodup
  intena : t.IsProcess → ∀ b, x.before = some b → 0 < k.noff → (∀ i, x.point ≠ .resumed i) →
    k.intena = b
  point : PointOk k x

def FramesOk {K : Type} (x : Local K) : Prop :=
  ∀ y ∈ x.frames, y = .idle ∨ ∃ l, y = .pushing l true

inductive Waiting {K : Type} (x : Local K) : Prop where
  | fresh (hpoint : x.point = .fresh) (hbefore : x.before = none)
  | switched (intena : Bool) (hpoint : x.point = .switched intena)
      (hbefore : ∀ b, x.before = some b → intena = b)

structure Inv (m : Machine C P L) : Prop where
  here : ∀ c c', m.cur c = m.cur c' → c = c'
  own : ∀ c c', m.cur c = .scheduler c' → c' = c
  running : ∀ c p, m.cur c = .process p → m.state p = .RUNNING
  owner : ∀ l c, m.owner l = some c ↔ l ∈ (m.thread (m.cur c)).held
  away : ∀ t, (∀ c, m.cur c ≠ t) → (m.thread t).held = []
  scheduler : ∀ c, m.cur c ≠ .scheduler c → (m.thread (.scheduler c)).point = .idle
  waiting : ∀ p, m.state p = .RUNNABLE ∨ m.state p = .SLEEPING ∨ m.state p = .USED →
    Waiting (m.thread (.process p))
  frames : ∀ t, FramesOk (m.thread t)
  cpu : ∀ c, CpuOk (m.cpu c) (m.cur c) (m.thread (m.cur c))
  log : ∀ x ∈ m.log, x.2.1 = x.2.2

theorem mayBecome_cases {a b : ProcState} (h : mayBecome a b = true) :
    a ≠ .RUNNING ∧ (b = .RUNNABLE ∨ b = .SLEEPING ∨ b = .USED → b ≠ .USED →
      a = .RUNNABLE ∨ a = .SLEEPING ∨ a = .USED) := by
  revert h
  cases a <;> cases b <;> decide

namespace Inv

variable {m : Machine C P L} {c : C}

variable {p : P} {l : Lock P L}

theorem away_of_state (h : Inv m) (hp : m.state p ≠ .RUNNING) (c : C) : m.cur c ≠ .process p :=
  fun hc => hp (h.running c p hc)

theorem away_of_scheduler (h : Inv m) (hc : m.cur c ≠ .scheduler c) (c' : C) :
    m.cur c' ≠ .scheduler c := by
  intro hc'
  have he := h.own c' c hc'
  subst he
  exact hc hc'

/-- What the CPU of a thread at point `y` has to do with it. -/
theorem at_point (h : Inv m) {y : Point (Lock P L)} (hp : (m.thread (m.cur c)).point = y) :
    (m.cpu c).noff = (m.thread (m.cur c)).held.length+y.pending ∧
    PointOk (m.cpu c) { m.thread (m.cur c) with point := y } ∧
    ((∀ i, y ≠ .resumed i) → (m.cur c).IsProcess → ∀ b, (m.thread (m.cur c)).before = some b →
      0 < (m.cpu c).noff → (m.cpu c).intena = b) := by
  subst hp
  exact ⟨(h.cpu c).noff, (h.cpu c).point, fun hy hproc b hb hpos => (h.cpu c).intena hproc b hb hpos hy⟩

theorem of_log (h : Inv m) {log : List (P × Bool × Bool)} (hlog : ∀ x ∈ log, x.2.1 = x.2.2) :
    Inv { m with log } :=
  ⟨h.here, h.own, h.running, h.owner, h.away, h.scheduler, h.waiting, h.frames, h.cpu, hlog⟩

theorem popOff_ok (h : Inv m) (hp : (m.thread (m.cur c)).point = .releasing) :
    (m.cpu c).popOff = .ok
      { m.cpu c with
        noff := (m.thread (m.cur c)).held.length
        sie := if (m.thread (m.cur c)).held = [] then (m.cpu c).intena else false } := by
  have hnoff := (h.at_point hp).1
  change _ = (m.thread (m.cur c)).held.length+1 at hnoff
  have hoff := (h.cpu c).off (by omega)
  unfold Cpu.popOff
  rw [hoff, hnoff, if_neg (by decide), if_neg (by omega)]
  congr 2
  by_cases hheld : (m.thread (m.cur c)).held = []
  · rw [if_pos hheld]
    cases (m.cpu c).intena with
    | true => exact if_pos ⟨List.length_eq_zero_iff.mpr hheld, rfl⟩
    | false => exact if_neg (by simp)
  · rw [if_neg hheld]
    exact if_neg fun hn => hheld (List.length_eq_zero_iff.mp hn.1)

variable [DecidableEq C]

theorem setCpu_self (m : Machine C P L) (c : C) : m.setCpu c (m.cpu c) = m := by
  unfold Machine.setCpu
  rw [update_eq_self]

variable [DecidableEq P]

/-- A step that changes nothing but the running thread, its CPU and the owners of locks. -/
theorem of_step (h : Inv m) (k : Cpu) (x : Local (Lock P L)) (owner : Lock P L → Option C)
    (howner : ∀ l c', owner l = some c' ↔ l ∈ (update m.thread (m.cur c) x (m.cur c')).held)
    (hok : CpuOk k (m.cur c) x) (hframes : FramesOk x) :
    Inv ({ m.setCpu c k with owner }.setThread (m.cur c) x) := by
  have hother : ∀ t, (∀ c', m.cur c' ≠ t) → update m.thread (m.cur c) x t = m.thread t :=
    fun t ht => update_of_ne (ht c).symm ..
  constructor
  · exact h.here
  · exact h.own
  · exact h.running
  · exact howner
  · intro t ht
    exact (congrArg Local.held (hother t ht)).trans (h.away t ht)
  · intro c' hc'
    exact (congrArg Local.point (hother _ (h.away_of_scheduler hc'))).trans (h.scheduler c' hc')
  · intro p hp
    change m.state p = _ ∨ m.state p = _ ∨ m.state p = _ at hp
    have haway := h.away_of_state (p := p) fun he => by rw [he] at hp; simp at hp
    change Waiting (update m.thread (m.cur c) x (.process p))
    rw [hother _ haway]
    exact h.waiting p hp
  · intro t
    change FramesOk (update m.thread (m.cur c) x t)
    by_cases ht : t = m.cur c
    · rw [ht, update_self]
      exact hframes
    · rw [update_of_ne ht]
      exact h.frames t
  · intro c'
    change CpuOk (update m.cpu c k c') (m.cur c') (update m.thread (m.cur c) x (m.cur c'))
    by_cases hc : c' = c
    · subst hc
      rw [update_self, update_self]
      exact hok
    · rw [update_of_ne hc, update_of_ne fun he => hc (h.here c' c he)]
      exact h.cpu c'
  · exact h.log

theorem of_local (h : Inv m) (k : Cpu) (x : Local (Lock P L))
    (hheld : x.held = (m.thread (m.cur c)).held) (hok : CpuOk k (m.cur c) x) (hframes : FramesOk x) :
    Inv ((m.setCpu c k).setThread (m.cur c) x) := by
  refine h.of_step k x m.owner (fun l c' => ?_) hok hframes
  rw [h.owner l c']
  by_cases hc : m.cur c' = m.cur c
  · rw [hc, update_self, hheld]
  · rw [update_of_ne hc]

theorem of_thread (h : Inv m) (x : Local (Lock P L))
    (hheld : x.held = (m.thread (m.cur c)).held) (hok : CpuOk (m.cpu c) (m.cur c) x) (hframes : FramesOk x) :
    Inv (m.setThread (m.cur c) x) := by
  rw [← setCpu_self m c]
  exact h.of_local (m.cpu c) x hheld hok hframes

theorem of_swtch (h : Inv m) {new : Thread C P} (hnew : ∀ c', m.cur c' ≠ new)
    (x y : Point (Lock P L)) (state : P → ProcState)
    (hown : ∀ c', new = .scheduler c' → c' = c)
    (hrunning : ∀ p, new = .process p → state p = .RUNNING)
    (hother : ∀ c' p, c' ≠ c → m.cur c' = .process p → state p = .RUNNING)
    (hx : ∀ c', m.cur c = .scheduler c' → x = .idle)
    (hwaiting : ∀ p, state p = .RUNNABLE ∨ state p = .SLEEPING ∨ state p = .USED →
      .process p ≠ new ∧ (.process p = m.cur c →
        Waiting { m.thread (m.cur c) with point := x, held := [] }) ∧
      (.process p ≠ m.cur c → Waiting (m.thread (.process p))))
    (hok : CpuOk (m.cpu c) new
      { m.thread new with point := y, held := (m.thread (m.cur c)).held }) :
    Inv { m.swtch c (m.cur c) new x y with state } := by
  have hne : m.cur c ≠ new := hnew c
  generalize hT : update (update m.thread (m.cur c)
    { m.thread (m.cur c) with point := x, held := [] }) new
    { update m.thread (m.cur c) { m.thread (m.cur c) with point := x, held := [] } new with
      point := y, held := (m.thread (m.cur c)).held } = T
  have hTnew : T new = { m.thread new with point := y, held := (m.thread (m.cur c)).held } := by
    rw [← hT, update_self, update_of_ne hne.symm]
  have hTold : T (m.cur c) = { m.thread (m.cur c) with point := x, held := [] } := by
    rw [← hT, update_of_ne hne, update_self]
  have hTrest : ∀ t, t ≠ new → t ≠ m.cur c → T t = m.thread t := by
    intro t ht ht'
    rw [← hT, update_of_ne ht, update_of_ne ht']
  generalize hcur : update m.cur c new = cur
  have hcurc : cur c = new := by rw [← hcur, update_self]
  have hcurne : ∀ c', c' ≠ c → cur c' = m.cur c' := by
    intro c' hc'
    rw [← hcur, update_of_ne hc']
  have hm : { m.swtch c (m.cur c) new x y with state } = { m with cur, thread := T, state } := by
    rw [← hT, ← hcur]
    rfl
  rw [hm]
  -- the thread of another CPU
  have hTcur : ∀ c', c' ≠ c → T (cur c') = m.thread (m.cur c') := by
    intro c' hc'
    rw [hcurne c' hc']
    exact hTrest _ (hnew c') fun he => hc' (h.here c' c he)
  constructor
  · intro c1 c2 he
    dsimp only at he
    by_cases h1 : c1 = c
    · by_cases h2 : c2 = c
      · rw [h1, h2]
      · rw [h1, hcurc, hcurne c2 h2] at he
        exact absurd he.symm (hnew c2)
    · by_cases h2 : c2 = c
      · rw [h2, hcurc, hcurne c1 h1] at he
        exact absurd he (hnew c1)
      · rw [hcurne c1 h1, hcurne c2 h2] at he
        exact h.here c1 c2 he
  · intro c1 c2 he
    dsimp only at he
    by_cases h1 : c1 = c
    · rw [h1, hcurc] at he
      rw [h1]
      exact hown c2 he
    · rw [hcurne c1 h1] at he
      exact h.own c1 c2 he
  · intro c' p he
    dsimp only at he
    by_cases hc : c' = c
    · rw [hc, hcurc] at he
      exact hrunning p he
    · rw [hcurne c' hc] at he
      exact hother c' p hc he
  · intro l c'
    dsimp only
    rw [h.owner l c']
    by_cases hc : c' = c
    · rw [hc, hcurc, hTnew]
    · rw [hTcur c' hc]
  · intro t ht
    dsimp only at ht ⊢
    have htnew : t ≠ new := fun he => ht c (hcurc.trans he.symm)
    by_cases htold : t = m.cur c
    · rw [htold, hTold]
    · rw [hTrest t htnew htold]
      apply h.away t
      intro c' hc'
      by_cases hc : c' = c
      · rw [hc] at hc'
        exact htold hc'.symm
      · exact ht c' ((hcurne c' hc).trans hc')
  · intro c' hc'
    dsimp only at hc' ⊢
    have htnew : .scheduler c' ≠ new := by
      intro he
      have hcc := hown c' he.symm
      rw [hcc, hcurc, ← hcc] at hc'
      exact hc' he.symm
    by_cases htold : .scheduler c' = m.cur c
    · rw [htold, hTold]
      exact hx c' htold.symm
    · rw [hTrest _ htnew htold]
      apply h.scheduler c'
      intro he
      by_cases hc : c' = c
      · rw [hc] at he htold
        exact htold he.symm
      · exact hc' ((hcurne c' hc).trans he)
  · intro p hp
    dsimp only at hp ⊢
    obtain ⟨hpnew, hself, helse⟩ := hwaiting p hp
    by_cases hpold : .process p = m.cur c
    · rw [hpold, hTold]
      exact hself hpold
    · rw [hTrest _ hpnew hpold]
      exact helse hpold
  · intro t
    dsimp only
    by_cases htnew : t = new
    · rw [htnew, hTnew]
      exact h.frames new
    · by_cases htold : t = m.cur c
      · rw [htold, hTold]
        exact h.frames (m.cur c)
      · rw [hTrest t htnew htold]
        exact h.frames t
  · intro c'
    dsimp only
    by_cases hc : c' = c
    · rw [hc, hcurc, hTnew]
      exact hok
    · rw [hTcur c' hc, hcurne c' hc]
      exact h.cpu c'
  · exact h.log

theorem read (h : Inv m) (hp : (m.thread (m.cur c)).point = .idle)
    (hl : l ∉ (m.thread (m.cur c)).held) :
    Inv (m.setThread (m.cur c) { m.thread (m.cur c) with point := .pushing l (m.cpu c).sie }) := by
  have hok := h.cpu c
  obtain ⟨hnoff, -, hintena⟩ := h.at_point hp
  exact h.of_thread _ rfl ⟨hnoff, hok.off, hok.nodup,
    fun hproc b hb hpos _ => hintena nofun hproc b hb hpos, rfl, hl⟩ (h.frames _)

theorem disable (h : Inv m) {old : Bool} (hp : (m.thread (m.cur c)).point = .pushing l old) :
    Inv ((m.setCpu c ((m.cpu c).pushOff old)).setThread (m.cur c)
      { m.thread (m.cur c) with
        point := .spinning l
        before := if (m.thread (m.cur c)).held = [] then some (m.cpu c).sie
          else (m.thread (m.cur c)).before }) := by
  have hok := h.cpu c
  obtain ⟨hnoff, ⟨hold, hl⟩, hintena⟩ := h.at_point hp
  change _ = (m.thread (m.cur c)).held.length at hnoff
  refine h.of_local _ _ rfl ⟨?_, fun _ => rfl, hok.nodup, ?_, hl⟩ (h.frames _)
  · change (m.cpu c).noff+1 = (m.thread (m.cur c)).held.length+1
    rw [hnoff]
  · intro hproc b hb _ _
    change (if (m.cpu c).noff = 0 then old else (m.cpu c).intena) = b
    -- the first lock is the one with which the counter is 0
    split_ifs at hb with hheld
    · rw [if_pos (by rw [hnoff, hheld, List.length_nil]), hold, Option.some.inj hb]
    · have hpos : 0 < (m.cpu c).noff := by
        rw [hnoff]
        exact List.length_pos_iff.mpr hheld
      rw [if_neg hpos.ne']
      exact hintena nofun hproc b hb hpos

/-- `release` ends. A process that has no lock now has the interrupts as they were. -/
theorem popOff (h : Inv m) (hp : (m.thread (m.cur c)).point = .releasing) :
    ∃ k, (m.cpu c).popOff = .ok k ∧
      Inv { (m.setCpu c k).setThread (m.cur c) { m.thread (m.cur c) with point := .idle } with
        log := m.note (m.cur c) k.sie } := by
  have hok := h.cpu c
  obtain ⟨hnoff, -, hintena⟩ := h.at_point hp
  replace hintena := fun hproc b hb => hintena nofun hproc b hb (by rw [hnoff]; exact Nat.succ_pos _)
  refine ⟨_, h.popOff_ok hp, of_log ?_ ?_⟩
  · refine h.of_local _ _ rfl ⟨rfl, ?_, hok.nodup, ?_, trivial⟩ (h.frames _)
    · intro hpos
      exact if_neg (List.length_pos_iff.mp hpos)
    · intro hproc b hb _ _
      exact hintena hproc b hb
  · intro x hx
    unfold Machine.note at hx
    split at hx
    · rename_i t p b hproc hheld hbefore
      rcases List.mem_append.mp hx with hx | hx
      · exact h.log x hx
      · rw [List.mem_singleton.mp hx]
        rw [if_pos hheld]
        exact (hintena (by rw [hproc]; trivial) b hbefore).symm
    · exact h.log x hx

theorem setIntr (h : Inv m) (hp : (m.thread (m.cur c)).point = .idle)
    (hheld : (m.thread (m.cur c)).held = []) (on : Bool) :
    Inv (m.setCpu c { m.cpu c with sie := on }) := by
  have hok := h.cpu c
  have hzero : (m.cpu c).noff = 0 := by
    rw [hok.noff, hp, hheld]
    rfl
  have hsame : m.setCpu c { m.cpu c with sie := on } =
      (m.setCpu c { m.cpu c with sie := on }).setThread (m.cur c) (m.thread (m.cur c)) := by
    unfold Machine.setThread Machine.setCpu
    rw [update_eq_self]
  rw [hsame]
  refine h.of_local _ _ rfl ⟨hok.noff, ?_, hok.nodup, ?_, ?_⟩ (h.frames _)
  · intro hpos
    exact absurd hzero hpos.ne'
  · intro _ b hb hpos
    exact absurd hzero hpos.ne'
  · unfold PointOk
    rw [hp]
    trivial

theorem interrupt (h : Inv m) : Inv (m.interrupt c) := by
  unfold Machine.interrupt
  dsimp only
  split_ifs with hc
  swap
  · exact h
  obtain ⟨hon, hint⟩ := hc
  have hok := h.cpu c
  -- no lock is held, since the interrupts are on
  have hzero : (m.cpu c).noff = 0 := by
    by_contra hne
    rw [hok.off (Nat.pos_of_ne_zero hne)] at hon
    cases hon
  have hnil : (m.thread (m.cur c)).held.length = 0 := by
    have hnoff := hok.noff
    omega
  refine h.of_local _ _ rfl ⟨?_, fun _ => rfl, hok.nodup, ?_, trivial⟩ ?_
  · change (m.cpu c).noff = (m.thread (m.cur c)).held.length+0
    rw [hzero, hnil]
  · intro _ b hb hpos
    exact absurd hzero hpos.ne'
  · intro y hy
    rcases List.mem_cons.mp hy with he | hy
    · have hpoint := hok.point
      unfold PointOk at hpoint
      rw [he]
      cases hp : (m.thread (m.cur c)).point with
      | idle => exact Or.inl rfl
      | pushing l old =>
        rw [hp] at hpoint
        rw [hpoint.1, hon]
        exact Or.inr ⟨l, rfl⟩
      | _ => rw [hp] at hint; cases hint
    · exact h.frames _ y hy

theorem sret (h : Inv m) (hp : (m.thread (m.cur c)).point = .idle)
    (hheld : (m.thread (m.cur c)).held = []) {point : Point (Lock P L)}
    {frames : List (Point (Lock P L))} (hframes : (m.thread (m.cur c)).frames = point :: frames) :
    Inv ((m.setCpu c { m.cpu c with sie := true }).setThread (m.cur c)
      { m.thread (m.cur c) with point, frames }) := by
  have hok := h.cpu c
  have hzero : (m.cpu c).noff = 0 := by
    rw [hok.noff, hp, hheld]
    rfl
  have hall := h.frames (m.cur c)
  unfold FramesOk at hall
  rw [hframes, List.forall_mem_cons] at hall
  have hpoint : point.pending = 0 ∧ PointOk { m.cpu c with sie := true }
      { m.thread (m.cur c) with point, frames } := by
    rcases hall.1 with rfl | ⟨l, rfl⟩
    · exact ⟨rfl, trivial⟩
    · exact ⟨rfl, rfl, by rw [hheld]; exact List.not_mem_nil⟩
  refine h.of_local _ _ rfl ⟨?_, ?_, hok.nodup, ?_, hpoint.2⟩ hall.2
  · rw [hzero, hheld, hpoint.1]
    rfl
  · intro hpos
    exact absurd hzero hpos.ne'
  · intro _ b hb hpos
    exact absurd hzero hpos.ne'

theorem restore (h : Inv m) {intena : Bool} (hp : (m.thread (m.cur c)).point = .resumed intena) :
    Inv ((m.setCpu c { m.cpu c with intena }).setThread (m.cur c)
      { m.thread (m.cur c) with point := .idle }) := by
  have hok := h.cpu c
  obtain ⟨hnoff, hpoint, -⟩ := h.at_point hp
  exact h.of_local _ _ rfl ⟨hnoff, hok.off, hok.nodup, fun _ b hb _ _ => hpoint.2 b hb, trivial⟩
    (h.frames _)

/-- A process that is not running gets another state, and maybe a new context. -/
theorem setState (h : Inv m) (hp : m.state p ≠ .RUNNING) (state : ProcState) (x : Local (Lock P L)) (hheld : x.held = []) (hframes : FramesOk x)
    (hwaiting : state = .RUNNABLE ∨ state = .SLEEPING ∨ state = .USED → Waiting x) :
    Inv ({ m with state := update m.state p state }.setThread (.process p) x) := by
  have haway := h.away_of_state hp
  have hother : ∀ c', update m.thread (.process p) x (m.cur c') = m.thread (m.cur c') :=
    fun c' => update_of_ne (haway c') ..
  constructor
  · exact h.here
  · exact h.own
  · intro c' p' hc'
    have hne : p' ≠ p := by
      intro he
      rw [he] at hc'
      exact haway c' hc'
    exact (update_of_ne hne ..).trans (h.running c' p' hc')
  · intro l c'
    change m.owner l = some c' ↔ l ∈ (update m.thread (.process p) x (m.cur c')).held
    rw [hother c']
    exact h.owner l c'
  · intro t ht
    change (update m.thread (.process p) x t).held = []
    by_cases htp : t = .process p
    · rw [htp, update_self]
      exact hheld
    · rw [update_of_ne htp]
      exact h.away t ht
  · intro c' hc'
    have hne : Thread.scheduler c' ≠ .process p := nofun
    change (update m.thread (.process p) x (.scheduler c')).point = .idle
    exact h.scheduler c' hc'
  · intro p' hp'
    change Waiting (update m.thread (.process p) x (.process p'))
    by_cases hpp : p' = p
    · subst hpp
      change update m.state p' state p' = _ ∨ update m.state p' state p' = _ ∨
        update m.state p' state p' = _ at hp'
      rw [update_self] at hp' ⊢
      exact hwaiting hp'
    · change update m.state p state p' = _ ∨ update m.state p state p' = _ ∨
        update m.state p state p' = _ at hp'
      rw [update_of_ne hpp] at hp'
      rw [update_of_ne fun he => hpp (Thread.process.inj he)]
      exact h.waiting p' hp'
  · intro t
    change FramesOk (update m.thread (.process p) x t)
    by_cases htp : t = .process p
    · rw [htp, update_self]
      exact hframes
    · rw [update_of_ne htp]
      exact h.frames t
  · intro c'
    change CpuOk (m.cpu c') (m.cur c') (update m.thread (.process p) x (m.cur c'))
    rw [hother c']
    exact h.cpu c'
  · exact h.log

theorem sched (h : Inv m) (hcur : m.cur c = .process p)
    (hp : (m.thread (m.cur c)).point = .idle) (hheld : (m.thread (m.cur c)).held = [.proc p])
    (state : ProcState) :
    (m.cpu c).noff = 1 ∧ (m.cpu c).sie = false ∧
      Inv { m.swtch c (m.cur c) (.scheduler c) (.switched (m.cpu c).intena) .idle with
        state := update m.state p state } := by
  have hok := h.cpu c
  have hnoff : (m.cpu c).noff = 1 := by
    rw [hok.noff, hp, hheld]
    rfl
  have hoff := hok.off (by rw [hnoff]; exact Nat.one_pos)
  refine ⟨hnoff, hoff, h.of_swtch ?_ _ _ _ ?_ ?_ ?_ ?_ ?_ ?_⟩
  · exact h.away_of_scheduler (by rw [hcur]; exact nofun)
  · intro c' he
    exact (Thread.scheduler.inj he).symm
  · exact fun p' => nofun
  · intro c' p' hc' hcur'
    have hne : p' ≠ p := by
      intro he
      rw [he, ← hcur] at hcur'
      exact hc' (h.here c' c hcur')
    exact (update_of_ne hne ..).trans (h.running c' p' hcur')
  · intro c' hc'
    rw [hcur] at hc'
    cases hc'
  · intro p' hp'
    refine ⟨nofun, fun _ => ?_, fun hne => ?_⟩
    · refine .switched (m.cpu c).intena rfl fun b hb => ?_
      exact (h.at_point hp).2.2 nofun (by rw [hcur]; trivial) b hb (by rw [hnoff]; exact Nat.one_pos)
    · have hpp : p' ≠ p := fun he => hne (by rw [he, hcur])
      rw [update_of_ne hpp] at hp'
      exact h.waiting p' hp'
  · refine ⟨?_, hok.off, hok.nodup, nofun, trivial⟩
    rw [hnoff, hheld]
    rfl

theorem dispatch (h : Inv m) {c' : C} (hcur : m.cur c = .scheduler c')
    (hp : (m.thread (m.cur c)).point = .idle) (hheld : (m.thread (m.cur c)).held = [.proc p])
    (hstate : m.state p = .RUNNABLE) :
    Inv { m.swtch c (m.cur c) (.process p) .idle (match (m.thread (.process p)).point with
          | .switched intena => .resumed intena
          | _ => .idle) with
      state := update m.state p .RUNNING } := by
  have hok := h.cpu c
  have hnoff : (m.cpu c).noff = 1 := by
    rw [hok.noff, hp, hheld]
    rfl
  have haway := h.away_of_state (p := p) (by rw [hstate]; exact nofun)
  refine h.of_swtch haway _ _ _ nofun ?_ ?_ (fun _ _ => rfl) ?_ ?_
  · intro p' he
    rw [← Thread.process.inj he]
    exact update_self ..
  · intro c1 p' _ hcur'
    have hne : p' ≠ p := by
      intro he
      rw [he] at hcur'
      exact haway c1 hcur'
    exact (update_of_ne hne ..).trans (h.running c1 p' hcur')
  · intro p' hp'
    have hpp : p' ≠ p := by
      intro he
      rw [he] at hp'
      simp at hp'
    rw [update_of_ne hpp] at hp'
    refine ⟨fun he => hpp (Thread.process.inj he), fun he => ?_, fun _ => h.waiting p' hp'⟩
    rw [hcur] at he
    cases he
  · cases h.waiting p (Or.inl hstate) with
    | fresh hpoint hbefore =>
      rw [hpoint]
      refine ⟨?_, hok.off, hok.nodup, fun _ b hb => ?_, trivial⟩
      · rw [hnoff, hheld]
        rfl
      · rw [hbefore] at hb
        cases hb
    | switched intena hpoint hbefore =>
      rw [hpoint]
      refine ⟨?_, hok.off, hok.nodup, fun _ b hb _ hn => absurd rfl (hn intena), ?_, hbefore⟩
      · rw [hnoff, hheld]
        rfl
      · rw [hheld]
        exact nofun

variable [DecidableEq L]

theorem of_lock (h : Inv m) (l : Lock P L) (o : Option C) (x : Local (Lock P L))
    (hfree : m.owner l = none ∨ m.owner l = some c) (ho : o = none ∨ o = some c)
    (hl : l ∈ x.held ↔ o = some c)
    (hheld : ∀ l', l' ≠ l → (l' ∈ x.held ↔ l' ∈ (m.thread (m.cur c)).held))
    (hok : CpuOk (m.cpu c) (m.cur c) x) (hframes : FramesOk x) :
    Inv ((m.setOwner l o).setThread (m.cur c) x) := by
  rw [← setCpu_self m c]
  refine h.of_step (m.cpu c) x (update m.owner l o) (fun l' c' => ?_) hok hframes
  by_cases hc : c' = c
  · subst hc
    rw [update_self]
    by_cases hll : l' = l
    · rw [hll, update_self, hl]
    · rw [update_of_ne hll, hheld l' hll, h.owner l' c']
  · rw [update_of_ne fun he => hc (h.here c' c he)]
    by_cases hll : l' = l
    · -- the lock is not the other CPU's before or after
      rw [hll, update_self, ← h.owner l c']
      have hno : ∀ o' : Option C, o' = none ∨ o' = some c → o' ≠ some c' := by
        rintro o' (rfl | rfl) he
        · cases he
        · exact hc (Option.some.inj he).symm
      exact iff_of_false (hno o ho) (hno _ hfree)
    · rw [update_of_ne hll, h.owner l' c']

theorem spin (h : Inv m) (hp : (m.thread (m.cur c)).point = .spinning l)
    (hfree : m.owner l = none) :
    Inv ((m.setOwner l (some c)).setThread (m.cur c)
      { m.thread (m.cur c) with point := .idle, held := l :: (m.thread (m.cur c)).held }) := by
  have hok := h.cpu c
  obtain ⟨hnoff, hpoint, hintena⟩ := h.at_point hp
  refine h.of_lock l (some c) _ (Or.inl hfree) (Or.inr rfl) ?_ ?_ ⟨hnoff, hok.off, ?_, ?_, trivial⟩
    (h.frames _)
  · exact iff_of_true List.mem_cons_self rfl
  · intro l' hl'
    rw [List.mem_cons, or_iff_right hl']
  · exact List.nodup_cons.mpr ⟨hpoint, hok.nodup⟩
  · exact fun hproc b hb hpos _ => hintena nofun hproc b hb hpos

theorem release (h : Inv m) (hp : (m.thread (m.cur c)).point = .idle)
    (hl : l ∈ (m.thread (m.cur c)).held) :
    Inv ((m.setOwner l none).setThread (m.cur c)
      { m.thread (m.cur c) with
        point := .releasing
        held := (m.thread (m.cur c)).held.erase l }) := by
  have hok := h.cpu c
  obtain ⟨hnoff, -, hintena⟩ := h.at_point hp
  refine h.of_lock l none _ (Or.inr ((h.owner l c).mpr hl)) (Or.inl rfl) ?_ ?_
    ⟨?_, hok.off, hok.nodup.erase l, ?_, trivial⟩ (h.frames _)
  · exact iff_of_false hok.nodup.not_mem_erase nofun
  · exact fun l' => List.mem_erase_of_ne
  · have hpos := List.length_pos_of_mem hl
    change (m.cpu c).noff = ((m.thread (m.cur c)).held.erase l).length+1
    rw [List.length_erase_of_mem hl, hnoff]
    change _+0 = _
    omega
  · exact fun hproc b hb hpos _ => hintena nofun hproc b hb hpos

theorem step (h : Inv m) (c : C) (a : Act P L) : ∃ m', m.step c a = .ok m' ∧ Inv m' := by
  unfold Machine.step
  dsimp only
  cases a with
  | read l =>
    cases hp : (m.thread (m.cur c)).point with
    | idle =>
      dsimp only
      by_cases hl : l ∈ (m.thread (m.cur c)).held
      · rw [if_neg (not_not_intro hl)]
        exact ⟨m, rfl, h⟩
      · rw [if_pos hl]
        exact ⟨_, rfl, h.read hp hl⟩
    | _ => exact ⟨m, rfl, h⟩
  | disable =>
    cases hp : (m.thread (m.cur c)).point with
    | pushing l old =>
      dsimp only
      rw [if_neg fun ho => (h.at_point hp).2.1.2 ((h.owner l c).mp ho)]
      exact ⟨_, rfl, h.disable hp⟩
    | _ => exact ⟨m, rfl, h⟩
  | spin =>
    cases hp : (m.thread (m.cur c)).point with
    | spinning l =>
      dsimp only
      split_ifs with hfree
      · exact ⟨_, rfl, h.spin hp hfree⟩
      · exact ⟨m, rfl, h⟩
    | _ => exact ⟨m, rfl, h⟩
  | release l =>
    cases hp : (m.thread (m.cur c)).point with
    | idle =>
      dsimp only
      by_cases hl : l ∈ (m.thread (m.cur c)).held
      · rw [if_pos hl, if_neg (not_not_intro ((h.owner l c).mpr hl))]
        exact ⟨_, rfl, h.release hp hl⟩
      · rw [if_neg hl]
        exact ⟨m, rfl, h⟩
    | _ => exact ⟨m, rfl, h⟩
  | popOff =>
    cases hp : (m.thread (m.cur c)).point with
    | releasing =>
      obtain ⟨k, hk, hinv⟩ := h.popOff hp
      rw [hk]
      exact ⟨_, rfl, hinv⟩
    | _ => exact ⟨m, rfl, h⟩
  | setIntr on =>
    cases hp : (m.thread (m.cur c)).point with
    | idle =>
      dsimp only
      split_ifs with hheld
      · exact ⟨_, rfl, h.setIntr hp hheld on⟩
      · exact ⟨m, rfl, h⟩
    | _ => exact ⟨m, rfl, h⟩
  | interrupt =>
    refine ⟨m.interrupt c, ?_, h.interrupt⟩
    cases (m.thread (m.cur c)).point <;> rfl
  | sret =>
    cases hp : (m.thread (m.cur c)).point with
    | idle =>
      cases hheld : (m.thread (m.cur c)).held with
      | nil =>
        cases hframes : (m.thread (m.cur c)).frames with
        | nil => exact ⟨m, rfl, h⟩
        | cons point frames =>
          have hsret := h.sret hp hheld hframes
          dsimp only at hsret
          rw [hheld] at hsret
          exact ⟨_, rfl, hsret⟩
      | cons l ls => exact ⟨m, rfl, h⟩
    | _ => exact ⟨m, rfl, h⟩
  | setState p state =>
    cases hp : (m.thread (m.cur c)).point with
    | idle =>
      dsimp only
      split_ifs with hc hused
      · obtain ⟨hfrom, -⟩ := mayBecome_cases hc.2
        exact ⟨_, rfl, h.setState hfrom state (unborn _) rfl (by simp [FramesOk, unborn])
          fun _ => .fresh rfl rfl⟩
      · obtain ⟨hfrom, hto⟩ := mayBecome_cases hc.2
        have hset := h.setState hfrom state (m.thread (.process p))
          (h.away _ (h.away_of_state hfrom)) (h.frames _) fun hs => h.waiting p (hto hs hused)
        unfold Machine.setThread at hset
        rw [update_eq_self] at hset
        exact ⟨_, rfl, hset⟩
      · exact ⟨m, rfl, h⟩
    | _ => exact ⟨m, rfl, h⟩
  | sched state =>
    cases hp : (m.thread (m.cur c)).point with
    | idle =>
      cases hcur : m.cur c with
      | scheduler c' => exact ⟨m, rfl, h⟩
      | process p =>
        dsimp only
        rw [← hcur]
        by_cases hc : (m.thread (m.cur c)).held = [.proc p] ∧ mayLeave state
        · obtain ⟨hnoff, hoff, hinv⟩ := h.sched hcur hp hc.1 state
          have howner : m.owner (.proc p) = some c :=
            (h.owner _ c).mpr (by rw [hc.1]; exact List.mem_singleton_self _)
          rw [if_pos hc, if_neg (not_not_intro howner), if_neg (not_not_intro hnoff),
            if_neg (by rw [hoff]; decide)]
          exact ⟨_, rfl, hinv⟩
        · rw [if_neg hc]
          exact ⟨m, rfl, h⟩
    | _ => exact ⟨m, rfl, h⟩
  | restore =>
    cases hp : (m.thread (m.cur c)).point with
    | resumed intena => exact ⟨_, rfl, h.restore hp⟩
    | _ => exact ⟨m, rfl, h⟩
  | dispatch p =>
    cases hp : (m.thread (m.cur c)).point with
    | idle =>
      cases hcur : m.cur c with
      | process p' => exact ⟨m, rfl, h⟩
      | scheduler c' =>
        dsimp only
        rw [← hcur]
        split_ifs with hc
        · exact ⟨_, rfl, h.dispatch hcur hp hc.1 hc.2.2⟩
        · exact ⟨m, rfl, h⟩
    | _ => exact ⟨m, rfl, h⟩

theorem run (h : Inv m) (acts : List (C × Act P L)) : ∃ m', m.run acts = .ok m' ∧ Inv m' := by
  induction acts generalizing m with
  | nil => exact ⟨m, rfl, h⟩
  | cons ca acts ih =>
    obtain ⟨m', hstep, h'⟩ := h.step ca.1 ca.2
    unfold Machine.run
    rw [hstep]
    exact ih h'

omit [DecidableEq C] [DecidableEq P] [DecidableEq L] in
theorem boot (sie : C → Bool) (first : P → Bool) : Inv (.boot sie first : Machine C P L) := by
  constructor
  · intro c c' he
    exact Thread.scheduler.inj he
  · intro c c' he
    exact (Thread.scheduler.inj he).symm
  · exact fun c p => nofun
  · exact fun l c => iff_of_false nofun List.not_mem_nil
  · intro t _
    cases t <;> rfl
  · exact fun c _ => rfl
  · exact fun p _ => .fresh rfl rfl
  · intro t
    cases t <;> simp [FramesOk, Machine.boot, unborn]
  · exact fun c => ⟨rfl, nofun, List.nodup_nil, nofun, trivial⟩
  · exact fun x hx => absurd hx List.not_mem_nil

end Inv

/-- The interrupt state belongs to the thread. However the CPUs interleave, nothing panics; `noff` of
a CPU is the number of locks that its thread holds, with the one that it is just taking or giving
back; interrupts are off while it is not 0; and a process that has given back its last lock has the
bit that it had before its first, on whichever CPUs it has been meanwhile. -/
theorem interrupts_of_thread [DecidableEq C] [DecidableEq P] [DecidableEq L] (sie : C → Bool)
    (first : P → Bool) (acts : List (C × Act P L)) :
    ∃ m, (Machine.boot sie first).run acts = .ok m ∧
      (∀ c, (m.cpu c).noff = (m.thread (m.cur c)).held.length+(m.thread (m.cur c)).point.pending ∧
        (0 < (m.cpu c).noff → (m.cpu c).sie = false)) ∧
      (∀ l c, m.owner l = some c ↔ l ∈ (m.thread (m.cur c)).held) ∧
      ∀ p before after, (p, before, after) ∈ m.log → after = before := by
  obtain ⟨m, hrun, h⟩ := (Inv.boot sie first).run acts
  refine ⟨m, hrun, fun c => ⟨(h.cpu c).noff, (h.cpu c).off⟩, h.owner, ?_⟩
  intro p before after hlog
  exact (h.log _ hlog).symm

end Xv6.Interrupts
