import Xv6.ProcLedger
import Xv6.SleepMonitor

/-! Parents and children: `kfork`, `kexit` and `kwait` with `wait_lock`. What the marks of killed
processes come from holds only in runs without `kkill(0)`: it is under a hypothesis `strict`. -/
namespace Xv6.Threads
open Code Function

/-- What a process knows about the process table. -/
inductive FamilyMode where
  | idle
  /-- In `allocproc`: it holds the lock of an unused slot. -/
  | unused (q : Fin NPROC)
  /-- In `kfork`: the slot of the new process, with its lock and without it. -/
  | created (q : Fin NPROC) | forks (q : Fin NPROC)
  /-- In `kexit`: not `initproc`; with `wait_lock`, no child before slot `i`; none at all. -/
  | dying | exits (i : ℕ) | leaves (parent : Option (Fin NPROC))
  /-- In `kwait`, with `wait_lock`: no zombie child before slot `i`; the slot is a child; and a
  zombie, whose lock the process holds. -/
  | scans (i : ℕ) | child (pp : Fin NPROC) | zombie (pp : Fin NPROC) (pid status : Int32)

namespace FamilyMode

def knows (d : Tasks) (t : Fin NPROC) (H : Set LockId) : FamilyMode → Prop
  | .idle => True
  | .unused q => .proc q ∈ H ∧ (d.proc q).state = .UNUSED
  | .created q => .proc q ∈ H ∧ (d.proc q).state = .USED ∧ (d.proc q).parent = none
  | .forks q => (d.proc q).state = .USED
  | .dying => t ≠ d.initproc
  | .exits i => .wait ∈ H ∧ t ≠ d.initproc ∧ ∀ c, c.val < i → (d.proc c).parent ≠ some t
  | .leaves parent => .wait ∈ H ∧ t ≠ d.initproc ∧ (∀ c, (d.proc c).parent ≠ some t) ∧
      live (d.proc t).state ∧ (d.proc t).parent = parent
  | .scans i => .wait ∈ H ∧ ∀ c, c.val < i → (d.proc c).parent = some t → (d.proc c).state ≠ .ZOMBIE
  | .child pp => .wait ∈ H ∧
      (∀ c, c.val < pp.val → (d.proc c).parent = some t → (d.proc c).state ≠ .ZOMBIE) ∧
      (d.proc pp).parent = some t
  | .zombie pp pid status => .wait ∈ H ∧ .proc pp ∈ H ∧ (d.proc pp).state = .ZOMBIE ∧
      (d.proc pp).parent = some t ∧ (d.proc pp).pid = pid ∧ (d.proc pp).xstate = status

/-- The process is making the new process in the slot. -/
@[simp] def owns (x : FamilyMode) (q : Fin NPROC) : Prop := x = .created q ∨ x = .forks q

/-- What is known does not rest on the lock of a process. -/
def loose : FamilyMode → Prop
  | .unused _ | .created _ | .zombie .. => False
  | _ => True

end FamilyMode

variable {strict : Prop} {start : Tasks} {d d' : Tasks} {g : Modes FamilyMode} {t u q : Fin NPROC}
  {H H' : Set LockId} {s s' : SleepMode} {x x' y : FamilyMode} {β : Type}

theorem FamilyMode.loose.knows_relock (hx : x.loose) (hw : LockId.wait ∈ H' ↔ LockId.wait ∈ H)
    (hk : x.knows d t H) : x.knows d t H' := by
  cases x with
  | idle => trivial
  | unused | created | zombie => exact hx.elim
  | forks | dying => exact hk
  | exits | leaves | scans | child => exact ⟨hw.mpr hk.1, hk.2⟩

/-! Changes that nobody's knowledge depends on. -/

/-- The processes change only when they run and whether they are killed. -/
structure Mild (d d' : Tasks) : Prop where
  init : d'.initproc = d.initproc
  pid : ∀ j, (d'.proc j).pid = (d.proc j).pid
  xstate : ∀ j, (d'.proc j).xstate = (d.proc j).xstate
  parent : ∀ j, (d'.proc j).parent = (d.proc j).parent
  state : ∀ j, (d'.proc j).state = (d.proc j).state ∨ live (d.proc j).state ∧ live (d'.proc j).state

namespace Mild

theorem of_proc (hi : d'.initproc = d.initproc) (hp : d'.proc = d.proc) : Mild d d' where
  init := hi
  pid j := by rw [hp]
  xstate j := by rw [hp]
  parent j := by rw [hp]
  state j := by rw [hp]; exact .inl rfl

theorem of_slot (hi : d'.initproc = d.initproc) (hothers : ∀ j, j ≠ q → d'.proc j = d.proc j)
    (hpid : (d'.proc q).pid = (d.proc q).pid) (hx : (d'.proc q).xstate = (d.proc q).xstate)
    (hp : (d'.proc q).parent = (d.proc q).parent)
    (hs : (d'.proc q).state = (d.proc q).state ∨ live (d.proc q).state ∧ live (d'.proc q).state) :
    Mild d d' := by
  refine ⟨hi, fun j => ?_, fun j => ?_, fun j => ?_, fun j => ?_⟩ <;> by_cases hj : j = q
  · rw [hj, hpid]
  · rw [hothers j hj]
  · rw [hj, hx]
  · rw [hothers j hj]
  · rw [hj, hp]
  · rw [hothers j hj]
  · rw [hj]
    exact hs
  · rw [hothers j hj]
    exact .inl rfl

theorem of_resched (h : Resched q d d') : Mild d d' := by
  obtain ⟨state, chan, hl, hl', rfl⟩ := h
  refine of_slot rfl (fun j hj => Tasks.setProc_of_ne d hj _) ?_ ?_ ?_ ?_ <;>
    rw [Tasks.setProc_self]
  exact .inr ⟨hl, hl'⟩

theorem of_kill (q : Fin NPROC) (pid : Int32) : Mild d (d.kill q pid).2 := by
  rw [Tasks.kill]
  split_ifs with hpid
  · refine of_slot (q := q) rfl (fun j hj => Tasks.hit_of_ne _ hj) ?_ ?_ ?_ ?_ <;>
      rw [Tasks.hit, Tasks.setProc_self]
    · rfl
    · rfl
    · rfl
    · by_cases hs : (d.proc q).state = .SLEEPING
      · refine .inr ⟨by rw [hs]; trivial, ?_⟩
        change live (if (d.proc q).state = .SLEEPING then .RUNNABLE else (d.proc q).state)
        rw [if_pos hs]
        trivial
      · exact .inl (if_neg hs)
  · exact of_proc rfl rfl

theorem state_iff (h : Mild d d') {st : ProcState} (hst : ¬live st) (j : Fin NPROC) :
    (d'.proc j).state = st ↔ (d.proc j).state = st := by
  rcases h.state j with hs | ⟨hl, hl'⟩
  · rw [hs]
  · exact ⟨fun he => absurd (he ▸ hl') hst, fun he => absurd (he ▸ hl) hst⟩

theorem live_iff (h : Mild d d') (j : Fin NPROC) :
    live (d'.proc j).state ↔ live (d.proc j).state := by
  rcases h.state j with hs | ⟨hl, hl'⟩
  · rw [hs]
  · exact iff_of_true hl' hl

theorem knows (h : Mild d d') (hk : x.knows d t H) : x.knows d' t H := by
  have hz (j : Fin NPROC) : (d'.proc j).state = .ZOMBIE ↔ (d.proc j).state = .ZOMBIE :=
    h.state_iff id j
  cases x with
  | idle => trivial
  | unused q => exact ⟨hk.1, (h.state_iff id q).mpr hk.2⟩
  | created q => exact ⟨hk.1, (h.state_iff id q).mpr hk.2.1, (h.parent q).trans hk.2.2⟩
  | forks q => exact (h.state_iff id q).mpr hk
  | dying => exact fun he => hk (he.trans h.init)
  | exits i =>
    refine ⟨hk.1, fun he => hk.2.1 (he.trans h.init), fun c hc => ?_⟩
    rw [h.parent c]
    exact hk.2.2 c hc
  | leaves parent =>
    obtain ⟨hw, hi, hc, hl, hp⟩ := hk
    exact ⟨hw, fun he => hi (he.trans h.init), fun c => (h.parent c).symm ▸ hc c, (h.live_iff t).mpr hl,
      (h.parent t).trans hp⟩
  | scans i =>
    refine ⟨hk.1, fun c hc hp => ?_⟩
    rw [h.parent c] at hp
    exact fun he => hk.2 c hc hp ((hz c).mp he)
  | child pp =>
    refine ⟨hk.1, fun c hc hp => ?_, (h.parent pp).trans hk.2.2⟩
    rw [h.parent c] at hp
    exact fun he => hk.2.1 c hc hp ((hz c).mp he)
  | zombie pp pid status =>
    obtain ⟨hw, hl, hs, hp, hpid, hx⟩ := hk
    exact ⟨hw, hl, (hz pp).mpr hs, (h.parent pp).trans hp, (h.pid pp).trans hpid,
      (h.xstate pp).trans hx⟩

end Mild

/-- Parents are processes that run or will, and so is `init`; an unused slot has no parent. -/
structure Rooted (d : Tasks) : Prop where
  parents : ∀ c q, (d.proc c).parent = some q → live (d.proc q).state
  unused : ∀ c, (d.proc c).state = .UNUSED → (d.proc c).parent = none
  init : live (d.proc d.initproc).state

theorem Rooted.mild (h : Rooted d) (hd : Mild d d') : Rooted d' := by
  refine ⟨fun c q hc => ?_, fun c hc => ?_, ?_⟩
  · rw [hd.parent c] at hc
    exact (hd.live_iff q).mpr (h.parents c q hc)
  · exact (hd.parent c).trans (h.unused c ((hd.state_iff id c).mp hc))
  · rw [hd.init]
    exact (hd.live_iff _).mpr h.init

theorem Mild.pids {base : ℕ} {e : Tasks} (h : Mild d d') (hb : Pids base e)
    (hp : e.proc = d.proc) (hn : d'.nextpid = e.nextpid) (ht : d'.trace = e.trace) :
    Pids base d' := by
  refine hb.keep hn ht fun p => ?_
  rw [hp]
  exact .inl ⟨h.pid p, mt (h.state_iff id p).mpr⟩

structure FamilyRest (strict : Prop) (start d : Tasks) (g : Modes FamilyMode) : Prop where
  rooted : Rooted d
  ledger : Ledger d.proc d.trace
  provenance : strict → Provenance d.proc d.trace
  pids : ∀ base, Pids base start → Pids base d
  knows : ∀ t, (g t).2.2.knows d t (g t).1
  owners : ∀ t u q, (g t).2.2.owns q → (g u).2.2.owns q → t = u

/-- A process sleeps in `kwait` while it has no zombie child. -/
def familyMay : Chan → Fin NPROC → Tasks → Prop
  | .proc q, _, d => ∀ c, (d.proc c).parent = some q → (d.proc c).state ≠ .ZOMBIE
  | _, _, _ => True

def familyMonitor (strict : Prop) (start : Tasks) : Monitor FamilyMode where
  ok := Pool.anyStep
  may := familyMay
  lax _ := True
  rest := FamilyRest strict start

abbrev family (strict : Prop) (start : Tasks) := (familyMonitor strict start).outline

theorem familyMay_of {c : Chan} {j : Fin NPROC} (h : familyMay c j d)
    (hd : ∀ k r, (d'.proc k).parent = some r → (d'.proc k).state = .ZOMBIE →
      (d.proc k).parent = some r ∧ (d.proc k).state = .ZOMBIE) : familyMay c j d' := by
  cases c with
  | proc q =>
    intro k hk hz
    obtain ⟨hk', hz'⟩ := hd k q hk hz
    exact h k hk' hz'
  | _ => trivial

theorem Mild.familyMay (h : Mild d d') {c : Chan} {j : Fin NPROC} (hw : familyMay c j d) :
    familyMay c j d' :=
  familyMay_of hw fun k _ hk hz => ⟨h.parent k ▸ hk, (h.state_iff id k).mp hz⟩

namespace FamilyRest

theorem mild (h : FamilyRest strict start d g) (hd : Mild d d') (hledger : Ledger d.proc d'.trace)
    (hprov : strict → Provenance d.proc d.trace → Provenance d'.proc d'.trace)
    (hpids : ∀ base, Pids base d → Pids base d') : FamilyRest strict start d' g where
  rooted := h.rooted.mild hd
  ledger := hledger.congr fun c => by
    rw [unreported, hd.pid, hd.xstate]
    exact if_congr (hd.state_iff id c) rfl rfl
  provenance hs := hprov hs (h.provenance hs)
  pids base hb := hpids base (h.pids base hb)
  knows t := hd.knows (h.knows t)
  owners := h.owners

theorem known (h : FamilyRest strict start d g) (hg : g t = (H, (s, x))) : x.knows d t H := by
  have hk := h.knows t
  rwa [hg] at hk

theorem enter (h : FamilyRest strict start d g) (hk : x.knows d t H)
    (ho : ∀ q, x.owns q → (g t).2.2.owns q) :
    FamilyRest strict start d (update g t (H, (s, x))) := by
  refine ⟨h.rooted, h.ledger, h.provenance, h.pids, fun u => ?_, fun u v q hu hv => ?_⟩
  · by_cases hut : u = t
    · subst hut
      rwa [update_self]
    · rw [update_of_ne hut]
      exact h.knows u
  · have hold (u : Fin NPROC) (hu : (update g t (H, (s, x)) u).2.2.owns q) : (g u).2.2.owns q := by
      by_cases hut : u = t
      · subst hut
        rw [update_self] at hu
        exact ho q hu
      · rwa [update_of_ne hut] at hu
    exact h.owners u v q (hold u hu) (hold v hv)

end FamilyRest

/-- Process `u`, which holds the locks `H` and is in mode `x`, changes the slot `q`. -/
structure Alters (d d' : Tasks) (u q : Fin NPROC) (H : Set LockId) (x : FamilyMode) : Prop where
  others : ∀ j, j ≠ q → d'.proc j = d.proc j
  init : d'.initproc = d.initproc
  locked : .proc q ∈ H ∨ (d'.proc q).state = (d.proc q).state ∧
    (d'.proc q).pid = (d.proc q).pid ∧ (d'.proc q).xstate = (d.proc q).xstate
  used : (d.proc q).state = .USED → (d'.proc q).state = .USED ∨ x.owns q
  parent : (d'.proc q).parent = (d.proc q).parent ∨
    .wait ∈ H ∧ (x.owns q ∨ (d.proc q).parent ≠ none) ∧
      ∀ r, (d'.proc q).parent = some r → live (d'.proc r).state
  unused : (d'.proc q).state = .UNUSED → (d'.proc q).parent = none
  zombie : (d'.proc q).state = .ZOMBIE → (d.proc q).state = .ZOMBIE ∨ .wait ∈ H
  alive : live (d.proc q).state → live (d'.proc q).state ∨
    q = u ∧ q ≠ d.initproc ∧ ∀ c, (d.proc c).parent ≠ some q

namespace Alters

section
variable (h : Alters d d' u q H x)
include h

theorem parent_of_unlocked (hw : .wait ∉ H) (c : Fin NPROC) :
    (d'.proc c).parent = (d.proc c).parent := by
  by_cases hcq : c = q
  · subst hcq
    exact h.parent.resolve_right fun hp => hw hp.1
  · rw [h.others c hcq]

theorem zombie_of_unlocked (hw : .wait ∉ H) {c : Fin NPROC}
    (hc : (d'.proc c).state = .ZOMBIE) : (d.proc c).state = .ZOMBIE := by
  by_cases hcq : c = q
  · subst hcq
    exact (h.zombie hc).resolve_right hw
  · rwa [h.others c hcq] at hc

/-- A slot whose lock somebody else holds stays as it is, its parent apart. -/
theorem same_of_unlocked {c : Fin NPROC} (hc : .proc c ∉ H) :
    (d'.proc c).state = (d.proc c).state ∧ (d'.proc c).pid = (d.proc c).pid ∧
      (d'.proc c).xstate = (d.proc c).xstate := by
  by_cases hcq : c = q
  · subst hcq
    exact h.locked.resolve_left hc
  · rw [h.others c hcq]
    exact ⟨rfl, rfl, rfl⟩

theorem knows (htu : t ≠ u) (hH : ∀ l, l ∈ H' → l ∉ H)
    (ho : y.owns q → ¬x.owns q) (hk : y.knows d t H') : y.knows d' t H' := by
  cases y with
  | idle => trivial
  | unused r => exact ⟨hk.1, (h.same_of_unlocked (hH _ hk.1)).1.trans hk.2⟩
  | created r =>
    refine ⟨hk.1, (h.same_of_unlocked (hH _ hk.1)).1.trans hk.2.1, ?_⟩
    by_cases hrq : r = q
    · subst hrq
      rcases h.parent with hp | ⟨-, hx | hp, -⟩
      · exact hp.trans hk.2.2
      · exact absurd hx (ho (.inl rfl))
      · exact absurd hk.2.2 hp
    · rw [h.others r hrq]
      exact hk.2.2
  | forks r =>
    have hr := hk
    change (d'.proc r).state = .USED
    by_cases hrq : r = q
    · subst hrq
      exact (h.used hr).resolve_right (ho (.inr rfl))
    · rwa [h.others r hrq]
  | dying => exact fun he => hk (he.trans h.init)
  | exits i =>
    refine ⟨hk.1, fun he => hk.2.1 (he.trans h.init), fun c hc => ?_⟩
    rw [h.parent_of_unlocked (hH _ hk.1)]
    exact hk.2.2 c hc
  | leaves parent =>
    obtain ⟨hwait, hi, hc, hl, hp⟩ := hk
    have hparent := h.parent_of_unlocked (hH _ hwait)
    refine ⟨hwait, fun he => hi (he.trans h.init), fun c => by rw [hparent]; exact hc c, ?_,
      (hparent t).trans hp⟩
    by_cases htq : t = q
    · subst htq
      exact (h.alive hl).resolve_right fun hq => htu hq.1
    · rwa [h.others t htq]
  | scans i =>
    have hw := hH _ hk.1
    refine ⟨hk.1, fun c hc hp hz => ?_⟩
    rw [h.parent_of_unlocked hw] at hp
    exact hk.2 c hc hp (h.zombie_of_unlocked hw hz)
  | child pp =>
    have hw := hH _ hk.1
    refine ⟨hk.1, fun c hc hp hz => ?_, (h.parent_of_unlocked hw pp).trans hk.2.2⟩
    rw [h.parent_of_unlocked hw] at hp
    exact hk.2.1 c hc hp (h.zombie_of_unlocked hw hz)
  | zombie pp pid status =>
    obtain ⟨hwait, hl, hs, hp, hpid, hxs⟩ := hk
    obtain ⟨hs', hpid', hxs'⟩ := h.same_of_unlocked (hH _ hl)
    exact ⟨hwait, hl, hs'.trans hs, (h.parent_of_unlocked (hH _ hwait) pp).trans hp,
      hpid'.trans hpid, hxs'.trans hxs⟩

theorem rooted (hr : Rooted d) : Rooted d' := by
  have hstill (c r : Fin NPROC) (hc : (d.proc c).parent = some r) : live (d'.proc r).state := by
    by_cases hrq : r = q
    · subst hrq
      exact (h.alive (hr.parents c r hc)).resolve_right fun hno => hno.2.2 c hc
    · rw [h.others r hrq]
      exact hr.parents c r hc
  refine ⟨fun c r hc => ?_, fun c hc => ?_, ?_⟩
  · by_cases hcq : c = q
    · subst hcq
      rcases h.parent with hp | ⟨-, -, hnew⟩
      · exact hstill c r (hp ▸ hc)
      · exact hnew r hc
    · rw [h.others c hcq] at hc
      exact hstill c r hc
  · by_cases hcq : c = q
    · subst hcq
      exact h.unused hc
    · rw [h.others c hcq] at hc ⊢
      exact hr.unused c hc
  · rw [h.init]
    by_cases hq : d.initproc = q
    · subst hq
      exact (h.alive hr.init).resolve_right fun hno => hno.2.1 rfl
    · rw [h.others _ hq]
      exact hr.init

end

end Alters

/-- A process is about to make the new process in a slot that is `USED`. -/
theorem FamilyMode.used_of_owns (hk : x.knows d t H) (ho : x.owns q) :
    (d.proc q).state = .USED := by
  rcases ho with rfl | rfl
  · exact hk.2.1
  · exact hk

theorem FamilyRest.alter (h : FamilyRest strict start d g) (hex : Exclusive (heldOf g))
    (hg : g u = (H, (s, x))) (hd : Alters d d' u q H x)
    (hledger : Ledger d'.proc d'.trace) (hprov : strict → Provenance d'.proc d'.trace)
    (hpids : ∀ base, Pids base d → Pids base d')
    (hk : x'.knows d' u H) (ho : ∀ r, x'.owns r → x.owns r ∨ (d.proc r).state ≠ .USED) :
    FamilyRest strict start d' (update g u (H, (s', x'))) := by
  have hx : (g u).2.2 = x := by rw [hg]
  refine ⟨hd.rooted h.rooted, hledger, hprov, fun base hb => hpids base (h.pids base hb), fun t => ?_,
    ?_⟩
  · by_cases htu : t = u
    · subst htu
      rwa [update_self]
    · rw [update_of_ne htu]
      refine hd.knows htu (fun l hl hlu => htu (hex l t u hl ?_)) (fun hy hxq => ?_) (h.knows t)
      · rwa [heldOf, hg]
      · exact htu (h.owners t u q hy (hx ▸ hxq))
  · -- A slot that `u` owns from now on is not anybody else's.
    have hnew (t r : Fin NPROC) (htu : t ≠ u) (ht : (g t).2.2.owns r) : ¬x'.owns r := by
      intro hr
      rcases ho r hr with hr | hr
      · exact htu (h.owners t u r ht (hx ▸ hr))
      · exact hr (FamilyMode.used_of_owns (h.knows t) ht)
    intro t v r ht hv
    by_cases htu : t = u
    · by_cases hvu : v = u
      · rw [htu, hvu]
      · rw [update_of_ne hvu] at hv
        rw [htu, update_self] at ht
        exact absurd ht (hnew v r hvu hv)
    · rw [update_of_ne htu] at ht
      by_cases hvu : v = u
      · rw [hvu, update_self] at hv
        exact absurd hv (hnew t r htu ht)
      · rw [update_of_ne hvu] at hv
        exact h.owners t v r ht hv

theorem familyMonitor_steady : (familyMonitor strict start).Steady where
  resched hw hd := (Mild.of_resched hd).familyMay hw
  woken _ hw := familyMay_of hw fun _ _ hk hz => ⟨hk, hz⟩
  tick _ hw := familyMay_of hw fun _ _ hk hz => ⟨hk, hz⟩

theorem FamilyRest.event {e : Event} (h : FamilyRest strict start d g) (hl : e.accounts = false)
    (hn : e.numbers = false) : FamilyRest strict start (d.record e) g :=
  h.mild (Mild.of_proc rfl rfl) (h.ledger.other hl) (fun _ hp =>
    hp.event fun p n he => by rw [he] at hn; cases hn) fun _ hb => hb.event hn

/-- Data that belongs neither to the processes nor to the trace. -/
theorem FamilyRest.aside (h : FamilyRest strict start d g) (hp : d'.proc = d.proc)
    (hi : d'.initproc = d.initproc) (hn : d'.nextpid = d.nextpid) (ht : d'.trace = d.trace) :
    FamilyRest strict start d' g := by
  refine h.mild (Mild.of_proc hi hp) (ht ▸ h.ledger) (fun _ hprov => ?_) fun _ hb =>
    (Mild.of_proc hi hp).pids hb rfl hn ht
  rw [hp, ht]
  exact hprov

theorem FamilyRest.resched (h : FamilyRest strict start d g) (hd : Resched q d d') :
    FamilyRest strict start d' g := by
  have hm := Mild.of_resched hd
  obtain ⟨state, chan, hl, hl', rfl⟩ := hd
  refine h.mild hm h.ledger (fun _ hp => hp.congr fun p => ⟨hm.pid p, ?_, (hm.state_iff id p).mp⟩)
    fun _ hb => hm.pids hb rfl rfl rfl
  by_cases hpq : p = q
  · subst hpq
    rw [Tasks.setProc_self]
    exact id
  · rw [Tasks.setProc_of_ne _ hpq]
    exact id

theorem familyMonitor_quiet (hx : x.loose) : (familyMonitor strict start).Quiet x where
  relock hr hgx hH := FamilyRest.enter hr
    (hx.knows_relock (hH .wait (by simp) (by simp)) (hgx ▸ hr.knows _)) fun _ hq => hgx.symm ▸ hq
  resched hr _ _ hd := FamilyRest.resched hr hd
  woken hr _ := FamilyRest.event hr rfl rfl
  tick hr _ := FamilyRest.aside hr rfl rfl rfl rfl

theorem familyMonitor_detached : (familyMonitor strict start).Detached where
  memory hw := familyMay_of hw fun _ _ hk hz => ⟨hk, hz⟩
  boundary _ hw := familyMay_of hw fun _ _ hk hz => ⟨hk, hz⟩
  restMemory hr := FamilyRest.aside hr rfl rfl rfl rfl
  restBoundary {d g e} he hr := by
    refine FamilyRest.event hr ?_ ?_ <;> cases e <;> first | rfl | cases he

theorem familyMonitor_idle : (familyMonitor strict start).Idle .idle where
  toQuiet := familyMonitor_quiet trivial
  anyLocks hr _ := FamilyRest.enter hr trivial (by simp)

end Xv6.Threads
