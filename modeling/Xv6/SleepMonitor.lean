import Xv6.KernelThreads

/-! Why `sleep` and `wakeup` lose nothing. A monitor says for each channel and process when the
process may sleep there (`may`). Whoever makes that untrue holds the lock of the channel and owes it
a `wakeup` before giving the lock back; whoever goes to sleep has found it true under that lock. So
it is true for every process asleep, unless a `wakeup` is owed that has yet to come to this process. -/
namespace Xv6.Threads
open Code Function

/-- The lock that goes with a channel. -/
def Chan.lock : Chan → LockId
  | .null | .proc _ => .wait
  | .nread | .nwrite => .pipe
  | .ticks => .ticks
  | .cons => .cons
  | .other n _ => .other n

/-- What a process is up to, as far as sleeping goes. -/
inductive SleepMode where
  | awake
  /-- It holds the lock of the channel and may sleep there. -/
  | ready (chan : Chan)
  /-- It holds the lock of the channel, and has woken the slots before `i`. -/
  | owes (chan : Chan) (i : ℕ)
  /-- In `sleep`, it has given back the lock of the channel but is not `SLEEPING` yet. -/
  | commits (chan : Chan)
  /-- It has left its CPU, or is about to. -/
  | off

namespace SleepMode

def needs (p : Fin NPROC) : SleepMode → Set LockId
  | .awake | .off => ∅
  | .ready chan | .owes chan _ => {chan.lock}
  | .commits _ => {.proc p}

def settled : SleepMode → Prop
  | .awake | .ready _ => True
  | .owes _ i => NPROC ≤ i
  | _ => False

/-- Fit to wake the channel from slot `i` on. -/
def wakes (chan : Chan) (i : ℕ) (s : SleepMode) : Prop :=
  s = .owes chan i ∨ i = 0 ∧ s.settled

end SleepMode

variable {X : Type} {W : Chan → Fin NPROC → Tasks → Prop} {lax : Chan → Prop} {d d' : Tasks}
  {held : Fin NPROC → Set LockId} {mode : Fin NPROC → SleepMode} {t : Fin NPROC}
  {chan : Chan} {i : ℕ}

/-- Process `j` sleeps on the channel or is on the way to it. -/
def Asleep (d : Tasks) (mode : Fin NPROC → SleepMode) (j : Fin NPROC) (chan : Chan) : Prop :=
  ((d.proc j).state = .SLEEPING ∧ (d.proc j).chan = chan) ∨ mode j = .commits chan

theorem not_asleep_update {m : SleepMode} (hs : (d.proc t).state ≠ .SLEEPING)
    (hm : ∀ c, m ≠ .commits c) : ¬Asleep d (update mode t m) t chan := by
  rintro (ha | ha)
  · exact hs ha.1
  · rw [update_self] at ha
    exact hm chan ha

/-- The invariant of a monitor. Only for the channels in `lax` may processes sleep on though they
may not, as long as they are going to be woken. -/
structure Monitored (W : Chan → Fin NPROC → Tasks → Prop) (lax : Chan → Prop) (d : Tasks)
    (held : Fin NPROC → Set LockId) (mode : Fin NPROC → SleepMode) : Prop where
  needs : ∀ j, (mode j).needs j ⊆ held j
  running : ∀ j, mode j ≠ .off → (d.proc j).state = .RUNNING
  ready : ∀ j chan, mode j = .ready chan → W chan j d
  visited : ∀ u chan i j, mode u = .owes chan i → j.val < i → ¬Asleep d mode j chan
  waits : ∀ j chan, Asleep d mode j chan →
    W chan j d ∨ lax chan ∧ ∃ u i, mode u = .owes chan i ∧ i ≤ j.val

/-- No lock has two holders. -/
def Exclusive (held : Fin NPROC → Set LockId) : Prop :=
  ∀ l t u, l ∈ held t → l ∈ held u → t = u

theorem Exclusive.insert {l : LockId} (h : Exclusive held) (hfree : ∀ u, l ∉ held u) :
    Exclusive (update held t (insert l (held t))) := by
  have hmem (l' : LockId) (u : Fin NPROC) (hu : l' ∈ update held t (Insert.insert l (held t)) u) :
      l' ∈ held u ∨ l' = l ∧ u = t := by
    by_cases hut : u = t
    · subst hut
      rw [update_self] at hu
      exact hu.symm.imp id fun h => ⟨h, rfl⟩
    · rw [update_of_ne hut] at hu
      exact .inl hu
  intro l' u v hu hv
  rcases hmem l' u hu with hu' | ⟨hlu, hut⟩ <;> rcases hmem l' v hv with hv' | ⟨hlv, hvt⟩
  · exact h l' u v hu' hv'
  · exact absurd (hlv ▸ hu') (hfree u)
  · exact absurd (hlu ▸ hv') (hfree v)
  · rw [hut, hvt]

namespace Monitored

section
variable (h : Monitored W lax d held mode)
include h

theorem lock_of_owes (ht : mode t = .owes chan i) : chan.lock ∈ held t := by
  have hn := h.needs t
  rw [ht] at hn
  exact hn rfl

theorem lock_of_ready (ht : mode t = .ready chan) : chan.lock ∈ held t := by
  have hn := h.needs t
  rw [ht] at hn
  exact hn rfl

/-- What the invariant is for: when the lock of the channel is free, nobody sleeps on it who
may not. -/
theorem may_of_free (chan : Chan) (hfree : ∀ u, chan.lock ∉ held u) {j : Fin NPROC}
    (hj : Asleep d mode j chan) : W chan j d := by
  rcases h.waits j chan hj with hw | ⟨-, u, i, hu, -⟩
  · exact hw
  · exact absurd (h.lock_of_owes hu) (hfree u)

theorem may_of_strict (hstrict : ¬lax chan) {j : Fin NPROC}
    (hj : Asleep d mode j chan) : W chan j d :=
  (h.waits j chan hj).resolve_right fun h => hstrict h.1

theorem not_asleep (ht : mode t ≠ .off) (hc : mode t ≠ .commits chan) : ¬Asleep d mode t chan := by
  rintro (⟨hs, -⟩ | hm)
  · rw [h.running t ht] at hs
    cases hs
  · exact hc hm

theorem relock {H : Set LockId} (hn : (mode t).needs t ⊆ H) :
    Monitored W lax d (update held t H) mode := by
  refine ⟨?_, h.running, h.ready, h.visited, h.waits⟩
  exact (forall_update_iff held fun j H => (mode j).needs j ⊆ H).mpr ⟨hn, fun j _ => h.needs j⟩

/-- A change of the data under which everybody stays in the same mode. -/
theorem change (hrun : ∀ j, mode j ≠ .off → (d'.proc j).state = .RUNNING)
    (hasleep : ∀ j chan, Asleep d' mode j chan → Asleep d mode j chan)
    (hready : ∀ j chan, mode j = .ready chan → W chan j d → W chan j d')
    (hwaits : ∀ j chan, Asleep d' mode j chan → W chan j d →
      W chan j d' ∨ lax chan ∧ ∃ u i, mode u = .owes chan i ∧ i ≤ j.val) :
    Monitored W lax d' held mode where
  needs := h.needs
  running := hrun
  ready j chan hm := hready j chan hm (h.ready j chan hm)
  visited u chan i j hu hj ha := h.visited u chan i j hu hj (hasleep j chan ha)
  waits j chan ha := (h.waits j chan (hasleep j chan ha)).elim (hwaits j chan ha) .inr

theorem change_may (hrun : ∀ j, mode j ≠ .off → (d'.proc j).state = .RUNNING)
    (hasleep : ∀ j chan, Asleep d' mode j chan → Asleep d mode j chan)
    (hW : ∀ chan j, W chan j d → W chan j d') : Monitored W lax d' held mode :=
  h.change hrun hasleep (fun j chan _ => hW chan j) fun j chan _ hw => .inl (hW chan j hw)

theorem keep (hproc : ∀ j, (d'.proc j).state = (d.proc j).state ∧
      ((d.proc j).state = .SLEEPING → (d'.proc j).chan = (d.proc j).chan))
    (hW : ∀ chan j, W chan j d → W chan j d') : Monitored W lax d' held mode := by
  refine h.change_may (fun j hj => ?_) (fun j chan ha => ?_) hW
  · rw [(hproc j).1]
    exact h.running j hj
  · rcases ha with ⟨hs, hc⟩ | ha
    · rw [(hproc j).1] at hs
      rw [(hproc j).2 hs] at hc
      exact .inl ⟨hs, hc⟩
    · exact .inr ha

theorem keep_slot {q : Fin NPROC} (hothers : ∀ j, j ≠ q → d'.proc j = d.proc j)
    (hs : (d'.proc q).state = (d.proc q).state)
    (hc : (d.proc q).state = .SLEEPING → (d'.proc q).chan = (d.proc q).chan)
    (hW : ∀ chan j, W chan j d → W chan j d') : Monitored W lax d' held mode := by
  refine h.keep (fun j => ?_) hW
  by_cases hj : j = q
  · subst hj
    exact ⟨hs, hc⟩
  · rw [hothers j hj]
    exact ⟨rfl, fun _ => rfl⟩

end

/-- A process that is not running changes its state, and does not fall asleep. -/
theorem rouse {q : Fin NPROC} (h : Monitored W lax d held mode)
    (hothers : ∀ j, j ≠ q → d'.proc j = d.proc j) (hs : (d.proc q).state ≠ .RUNNING)
    (hs' : (d'.proc q).state ≠ .SLEEPING) (hW : ∀ chan j, W chan j d → W chan j d') :
    Monitored W lax d' held mode := by
  refine h.change_may (fun j hj => ?_) (fun j chan ha => ?_) hW
  · by_cases hjq : j = q
    · subst hjq
      exact absurd (h.running j hj) hs
    · rw [hothers j hjq]
      exact h.running j hj
  · by_cases hjq : j = q
    · subst hjq
      exact ha.elim (fun ha => absurd ha.1 hs') .inr
    · rwa [Asleep, hothers j hjq] at ha

/-- The holder of the lock of a channel who owes it a `wakeup` may change when to sleep there. -/
theorem spoil (h : Monitored W lax d held mode) (hex : Exclusive held) (ht : mode t = .owes chan i)
    (hlax : lax chan ∨ NPROC ≤ i)
    (hproc : ∀ j, (d'.proc j).state = (d.proc j).state ∧ (d'.proc j).chan = (d.proc j).chan)
    (hW : ∀ c j, c ≠ chan → W c j d → W c j d') :
    Monitored W lax d' held mode := by
  have hasleep (j : Fin NPROC) (c : Chan) (ha : Asleep d' mode j c) : Asleep d mode j c := by
    rwa [Asleep, (hproc j).1, (hproc j).2] at ha
  refine h.change (fun j hj => ?_) hasleep (fun j c hj hw => ?_) fun j c ha hw => ?_
  · rw [(hproc j).1]
    exact h.running j hj
  · -- A process that is ready to sleep holds the lock itself.
    by_cases hc : c = chan
    · subst hc
      obtain rfl := hex _ t j (h.lock_of_owes ht) (h.lock_of_ready hj)
      rw [hj] at ht
      cases ht
    · exact hW c j hc hw
  · by_cases hc : c = chan
    · subst hc
      have hij : i ≤ j.val := by
        by_contra hlt
        exact h.visited t c i j ht (by omega) (hasleep j c ha)
      exact .inr ⟨hlax.resolve_right (by omega), t, i, ht, hij⟩
    · exact .inl (hW c j hc hw)

/-- Process `t` changes its mode, and nothing of the other processes. It must not be in the
middle of a `wakeup`, and must not fall asleep unless it was ready to. -/
theorem shift {m : SleepMode} (h : Monitored W lax d held mode) (hex : Exclusive held)
    (hothers : ∀ j, j ≠ t → d'.proc j = d.proc j) (hneeds : m.needs t ⊆ held t)
    (hrun : m ≠ .off → (d'.proc t).state = .RUNNING) (hready : ∀ c, m = .ready c → W c t d')
    (hpaid : ∀ c i, mode t = .owes c i → NPROC ≤ i) (howes : ∀ c i, m = .owes c i → i = 0)
    (hfall : ∀ c, Asleep d' (update mode t m) t c → Asleep d mode t c ∨ mode t = .ready c)
    (hW : ∀ c j, W c j d → W c j d' ∨ ∃ i, mode t = .owes c i) :
    Monitored W lax d' held (update mode t m) := by
  have hasleep (j : Fin NPROC) (hj : j ≠ t) (c : Chan)
      (ha : Asleep d' (update mode t m) j c) : Asleep d mode j c := by
    rwa [Asleep, update_of_ne hj, hothers j hj] at ha
  -- Nobody sleeps on a channel that `t` has been through.
  have hnobody (c : Chan) (i : ℕ) (ht : mode t = .owes c i) (j : Fin NPROC) : ¬Asleep d mode j c :=
    h.visited t c i j ht (lt_of_lt_of_le j.isLt (hpaid c i ht))
  have hmay (j : Fin NPROC) (c : Chan) (ha : Asleep d mode j c) (hw : W c j d) : W c j d' := by
    rcases hW c j hw with hw | ⟨i, ht⟩
    · exact hw
    · exact absurd ha (hnobody c i ht j)
  refine ⟨?_, ?_, fun j c hj => ?_, fun u c i j hu hj ha => ?_, fun j c ha => ?_⟩
  · exact (forall_update_iff mode fun j m => m.needs j ⊆ held j).mpr ⟨hneeds, fun j _ => h.needs j⟩
  · refine (forall_update_iff mode fun j m => m ≠ .off → (d'.proc j).state = .RUNNING).mpr
      ⟨hrun, fun j hj hon => ?_⟩
    rw [hothers j hj]
    exact h.running j hon
  · by_cases hjt : j = t
    · subst hjt
      rw [update_self] at hj
      exact hready c hj
    · rw [update_of_ne hjt] at hj
      rcases hW c j (h.ready j c hj) with hw | ⟨i, ht⟩
      · exact hw
      · exact absurd (hex _ j t (h.lock_of_ready hj) (h.lock_of_owes ht)) hjt
  · by_cases hut : u = t
    · subst hut
      rw [update_self] at hu
      rw [howes c i hu] at hj
      omega
    rw [update_of_ne hut] at hu
    by_cases hjt : j = t
    · subst hjt
      rcases hfall c ha with ha | ht
      · exact h.visited u c i j hu hj ha
      · exact hut (hex _ u j (h.lock_of_owes hu) (h.lock_of_ready ht))
    · exact h.visited u c i j hu hj (hasleep j hjt c ha)
  · have hold : Asleep d mode j c ∨ mode j = .ready c := by
      by_cases hjt : j = t
      · subst hjt
        exact hfall c ha
      · exact .inl (hasleep j hjt c ha)
    rcases hold with hold | hr
    · rcases h.waits j c hold with hw | ⟨hlax, u, i, hu, hi⟩
      · exact .inl (hmay j c hold hw)
      · refine .inr ⟨hlax, u, i, ?_, hi⟩
        rw [update_of_ne, hu]
        rintro rfl
        exact hnobody c i hu j hold
    · refine .inl ?_
      rcases hW c j (h.ready j c hr) with hw | ⟨i, ht⟩
      · exact hw
      · obtain rfl := hex _ j t (h.lock_of_ready hr) (h.lock_of_owes ht)
        rw [hr] at ht
        cases ht

theorem resettle {m : SleepMode} (h : Monitored W lax d held mode) (hex : Exclusive held)
    (ht : (mode t).settled) (hneeds : m.needs t ⊆ held t)
    (hc : ∀ c, m ≠ .commits c) (hready : ∀ c, m = .ready c → W c t d)
    (howes : ∀ c i, m = .owes c i → i = 0) : Monitored W lax d held (update mode t m) := by
  have hon : mode t ≠ .off := fun h => by rw [h] at ht; exact ht
  refine h.shift hex (fun _ _ => rfl) hneeds (fun _ => h.running t hon) hready (fun c i hm => ?_)
    howes (fun c ha => absurd ha (not_asleep_update ?_ hc)) fun c j hw => .inl hw
  · rw [hm] at ht
    exact ht
  · rw [h.running t hon]
    simp

section
variable (h : Monitored W lax d held mode) (hex : Exclusive held)
include h hex

theorem settle (ht : (mode t).settled) : Monitored W lax d held (update mode t .awake) :=
  h.resettle hex ht (Set.empty_subset _) (by simp) (by simp) (by simp)

theorem owe (ht : (mode t).settled)
    (hl : chan.lock ∈ held t) : Monitored W lax d held (update mode t (.owes chan 0)) :=
  h.resettle hex ht (Set.singleton_subset_iff.mpr hl) (by simp) (by simp)
    fun c i hm => (SleepMode.owes.inj hm).2.symm

theorem beginWake (ht : (mode t).wakes chan i) (hl : chan.lock ∈ held t) :
    Monitored W lax d held (update mode t (.owes chan i)) := by
  rcases ht with ht | ⟨rfl, ht⟩
  · rwa [← ht, update_eq_self]
  · exact h.owe hex ht hl

theorem getReady (ht : (mode t).settled) (hl : chan.lock ∈ held t) (hw : W chan t d) :
    Monitored W lax d held (update mode t (.ready chan)) :=
  h.resettle hex ht (Set.singleton_subset_iff.mpr hl) (by simp)
    (fun c hm => (SleepMode.ready.inj hm) ▸ hw) (by simp)

end

/-- The `wakeup` of `t` has come to slot `n`: nobody between sleeps on the channel. -/
theorem woke {n : ℕ} (h : Monitored W lax d held mode) (ht : mode t = .owes chan i)
    (hn : ∀ j : Fin NPROC, i ≤ j.val → j.val < n → ¬Asleep d mode j chan) :
    Monitored W lax d held (update mode t (.owes chan n)) := by
  have hmode (j : Fin NPROC) (m : SleepMode) (hm : ∀ i, m ≠ .owes chan i) :
      update mode t (.owes chan n) j = m ↔ mode j = m := by
    by_cases hj : j = t
    · subst hj
      rw [update_self, ht]
      exact ⟨fun h => absurd h.symm (hm _), fun h => absurd h.symm (hm _)⟩
    · rw [update_of_ne hj]
  have hasleep (j : Fin NPROC) (c : Chan) :
      Asleep d (update mode t (.owes chan n)) j c ↔ Asleep d mode j c := by
    rw [Asleep, Asleep, hmode j _ (by simp)]
  refine ⟨?_, fun j hj => ?_, fun j c hj => ?_, fun u c i' j hu hj ha => ?_, fun j c ha => ?_⟩
  · refine (forall_update_iff mode fun j m => m.needs j ⊆ held j).mpr ⟨?_, fun j _ => h.needs j⟩
    have hn := h.needs t
    rwa [ht] at hn
  · exact h.running j fun h => hj ((hmode j _ (by simp)).mpr h)
  · exact h.ready j c ((hmode j _ (by simp)).mp hj)
  · rw [hasleep] at ha
    by_cases hut : u = t
    · subst hut
      rw [update_self] at hu
      obtain ⟨rfl, rfl⟩ := SleepMode.owes.inj hu
      by_cases hij : i ≤ j.val
      · exact hn j hij hj ha
      · exact h.visited u chan i j ht (by omega) ha
    · rw [update_of_ne hut] at hu
      exact h.visited u c i' j hu hj ha
  · rw [hasleep] at ha
    rcases h.waits j c ha with hw | ⟨hlax, u, i', hu, hi⟩
    · exact .inl hw
    by_cases hut : u = t
    · subst hut
      rw [ht] at hu
      obtain ⟨rfl, rfl⟩ := SleepMode.owes.inj hu
      refine .inr ⟨hlax, u, n, update_self .., ?_⟩
      by_contra hlt
      exact hn j hi (by omega) ha
    · exact .inr ⟨hlax, u, i', by rw [update_of_ne hut, hu], hi⟩

end Monitored
/-- The states of a process that runs, or will. -/
def live : ProcState → Prop
  | .SLEEPING | .RUNNABLE | .RUNNING => True
  | _ => False

/-- Only when and where process `q` runs has changed. -/
def Resched (q : Fin NPROC) (d d' : Tasks) : Prop :=
  ∃ state chan, live (d.proc q).state ∧ live state ∧
    d' = d.setProc q fun pr => { pr with state := state, chan := chan }

abbrev Modes (X : Type) := Fin NPROC → Set LockId × (SleepMode × X)

abbrev Stand (X : Type) := Set LockId × (SleepMode × X)

def heldOf (g : Modes X) : Fin NPROC → Set LockId := fun t => (g t).1
def sleepOf (g : Modes X) : Fin NPROC → SleepMode := fun t => (g t).2.1

theorem sleepOf_eq {g : Modes X} {t : Fin NPROC} {H : Set LockId} {s : SleepMode} {x : X}
    (hg : g t = (H, (s, x))) : sleepOf g t = s := by rw [sleepOf, hg]

/-- The mode of `t` is what it was. -/
theorem Monitored.stay {g : Modes X} {H : Set LockId} {s : SleepMode} {x : X}
    (h : Monitored W lax d held (sleepOf g)) (hg : g t = (H, (s, x))) :
    Monitored W lax d held (update (sleepOf g) t s) := by
  have hs := sleepOf_eq hg
  rwa [← hs, update_eq_self]

theorem heldOf_eq {g : Modes X} {t : Fin NPROC} {H : Set LockId} {s : SleepMode} {x : X}
    (hg : g t = (H, (s, x))) : heldOf g t = H := by rw [heldOf, hg]

theorem heldOf_update (g : Modes X) (t : Fin NPROC) (a : Stand X) :
    heldOf (update g t a) = update (heldOf g) t a.1 :=
  comp_update Prod.fst g t a

theorem sleepOf_update (g : Modes X) (t : Fin NPROC) (a : Stand X) :
    sleepOf (update g t a) = update (sleepOf g) t a.2.1 :=
  comp_update (fun b : Stand X => b.2.1) g t a

theorem exclusive_of_held {lock : LockId → Option (Fin NPROC)} {g : Modes X} (h : Held lock g) :
    Exclusive (heldOf g) :=
  fun _ _ _ => h.unique

/-- When processes may sleep, and what else is invariant, with modes of type `X` beside those of
sleeping. -/
structure Monitor (X : Type) where
  ok : Fin NPROC → Tasks → (LockId → Option (Fin NPROC)) → Tasks → Prop
  may : Chan → Fin NPROC → Tasks → Prop
  lax : Chan → Prop
  rest : Tasks → Modes X → Prop

namespace Monitor

variable {m : Monitor X} {H : Set LockId} {s : SleepMode} {x : X} {β : Type}

abbrev Sound (m : Monitor X) (d : Tasks) (g : Modes X) : Prop :=
  Monitored m.may m.lax d (heldOf g) (sleepOf g)

def outline (m : Monitor X) : Outline (Fin NPROC) LockId Tasks (SleepMode × X) where
  ok := m.ok
  inv _ d g := Monitored m.may m.lax d (heldOf g) (sleepOf g) ∧ m.rest d g

/-- When to sleep does not depend on who runs, and on a `wakeup` or the clock only for its own
channel. -/
structure Steady (m : Monitor X) : Prop where
  resched : ∀ {c j q d d'}, m.may c j d → Resched q d d' → m.may c j d'
  woken : ∀ {c j c' d}, c ≠ c' → m.may c j d → m.may c j (d.record (.woken c'))
  tick : ∀ {c j n d}, c ≠ .ticks ∨ ¬m.lax .ticks → m.may c j d → m.may c j { d with ticks := n }

/-- In mode `x` a process may take and give back locks of processes and `tickslock`, and change
who runs, without any effect on the rest of the invariant. -/
structure Quiet (m : Monitor X) (x : X) : Prop where
  relock : ∀ {d g t H s}, m.rest d g → (g t).2.2 = x →
    (∀ l, (∀ q, l ≠ .proc q) → l ≠ .ticks → (l ∈ H ↔ l ∈ (g t).1)) →
    m.rest d (update g t (H, (s, x)))
  resched : ∀ {d d' g t q}, m.rest d g → (g t).2.2 = x → .proc q ∈ (g t).1 → Resched q d d' →
    m.rest d' g
  woken : ∀ {d g t c}, m.rest d g → (g t).2.2 = x → m.rest (d.record (.woken c)) g
  tick : ∀ {d g t n}, m.rest d g → (g t).2.2 = x → m.rest { d with ticks := n } g

/-- Nothing depends on the memory of the processes, nor on what they call. -/
structure Detached (m : Monitor X) : Prop where
  memory : ∀ {c j mem d}, m.may c j d → m.may c j { d with mem := mem }
  boundary : ∀ {c j e d}, e.boundary = true → m.may c j d → m.may c j (d.record e)
  restMemory : ∀ {d g mem}, m.rest d g → m.rest { d with mem := mem } g
  restBoundary : ∀ {d g e}, e.boundary = true → m.rest d g → m.rest (d.record e) g

/-! The rules for single steps. -/

variable {Q : Unit → Stand X → Prop} {f : Choice → Tasks → Option (β × Tasks)}

theorem lock_safe {l : LockId} (s' : SleepMode) (x' : X)
    (hs : ∀ d g, m.Sound d g → Exclusive (heldOf g) → m.rest d g →
      g t = (H, (s, x)) → (∀ u, l ∉ (g u).1) →
      Monitored m.may m.lax d (update (heldOf g) t (insert l H)) (update (sleepOf g) t s'))
    (hrest : ∀ d g, m.rest d g → g t = (H, (s, x)) → (∀ u, l ∉ (g u).1) →
      m.rest d (update g t (insert l H, (s', x'))))
    (hQ : l ∉ H → Q () (insert l H, (s', x'))) :
    m.outline.Safe t (H, (s, x)) (lock l : KCode Unit) Q := by
  refine Outline.Safe.lock fun d lock g hi hl hg hfree => ⟨(s', x'), ⟨?_, ?_⟩, ?_⟩
  · rw [heldOf_update, sleepOf_update]
    exact hs d g hi.1 (exclusive_of_held hl) hi.2 hg hfree
  · exact hrest d g hi.2 hg hfree
  · have := hfree t
    rw [hg] at this
    exact hQ this

theorem unlock_safe {l : LockId} (s' : SleepMode) (x' : X)
    (hs : ∀ d g, m.Sound d g → Exclusive (heldOf g) →
      g t = (H, (s, x)) →
      Monitored m.may m.lax d (update (heldOf g) t (H \ {l})) (update (sleepOf g) t s'))
    (hrest : ∀ d g, m.rest d g → g t = (H, (s, x)) → m.rest d (update g t (H \ {l}, (s', x'))))
    (hQ : l ∈ H → Q () (H \ {l}, (s', x'))) :
    m.outline.Safe t (H, (s, x)) (unlock l : KCode Unit) Q := by
  refine Outline.Safe.unlock fun d lock g hi hl hg hH =>
    ⟨(s', x'), ⟨?_, hrest d g hi.2 hg⟩, hQ hH⟩
  rw [heldOf_update, sleepOf_update]
  exact hs d g hi.1 (exclusive_of_held hl) hg

theorem access_safe {Q : β → Stand X → Prop}
    (h : ∀ i d lock g b d', m.Sound d g → Held lock g → m.rest d g → g t = (H, (s, x)) →
      f i d = some (b, d') → m.ok t d lock d' →
      ∃ s' x', Monitored m.may m.lax d' (heldOf g) (update (sleepOf g) t s') ∧
        m.rest d' (update g t (H, (s', x'))) ∧ Q b (H, (s', x'))) :
    m.outline.Safe t (H, (s, x)) (access f : KCode β) Q := by
  refine Outline.Safe.access fun i d lock g b d' hi hl hg hf hok => ?_
  obtain ⟨s', x', hm, hr, hQ⟩ := h i d lock g b d' hi.1 hl hi.2 hg hf hok
  refine ⟨(s', x'), ⟨?_, hr⟩, hQ⟩
  rw [heldOf_update, sleepOf_update]
  have hH := heldOf_eq hg
  rwa [← hH, update_eq_self]

theorem access_same {Q : β → Stand X → Prop}
    (h : ∀ i d lock g b d', m.Sound d g → Held lock g → m.rest d g → g t = (H, (s, x)) →
      f i d = some (b, d') → m.ok t d lock d' →
      m.Sound d' g ∧ m.rest d' g ∧ Q b (H, (s, x))) :
    m.outline.Safe t (H, (s, x)) (access f : KCode β) Q := by
  refine access_safe fun i d lock g b d' hm hl hr hg hf hok => ?_
  obtain ⟨hm, hr, hQ⟩ := h i d lock g b d' hm hl hr hg hf hok
  exact ⟨s, x, hm.stay hg, by rwa [← hg, update_eq_self], hQ⟩

theorem write_safe {f : Tasks → Tasks}
    (h : ∀ d lock g, m.Sound d g → Held lock g → m.rest d g → g t = (H, (s, x)) →
      m.ok t d lock (f d) →
      ∃ s' x', Monitored m.may m.lax (f d) (heldOf g) (update (sleepOf g) t s') ∧
        m.rest (f d) (update g t (H, (s', x'))) ∧ Q () (H, (s', x'))) :
    m.outline.Safe t (H, (s, x)) (write f : KCode Unit) Q := by
  refine access_safe fun _ d lock g b d' hm hl hr hg hf hok => ?_
  cases hf
  exact h d lock g hm hl hr hg hok

theorem read_safe {f : Tasks → β} {Q : β → Stand X → Prop}
    (h : ∀ d lock g, m.Sound d g → Held lock g → m.rest d g → g t = (H, (s, x)) →
      ∃ x', m.rest d (update g t (H, (s, x'))) ∧ Q (f d) (H, (s, x'))) :
    m.outline.Safe t (H, (s, x)) (read f : KCode β) Q := by
  refine access_safe fun _ d lock g b d' hm hl hr hg hf _ => ?_
  cases hf
  obtain ⟨x', hr', hQ⟩ := h d lock g hm hl hr hg
  exact ⟨s, x', hm.stay hg, hr', hQ⟩

/-! What is decided outside the modelled code. -/

theorem succeeds_safe {Q : Bool → Stand X → Prop}
    (hQ : ∀ ok, Q ok (H, (s, x))) : m.outline.Safe t (H, (s, x)) succeeds Q := by
  refine access_same fun i d lock g b d' hm _ hr _ hf _ => ?_
  cases i with
  | succeeds ok =>
    cases hf
    exact ⟨hm, hr, hQ _⟩
  | _ => cases hf

theorem copyin_safe {addr : UInt64} {Q : Option UInt8 → Stand X → Prop}
    (hQ : ∀ ch, Q ch (H, (s, x))) : m.outline.Safe t (H, (s, x)) (copyin t addr) Q := by
  refine access_same fun i d lock g b d' hm _ hr _ hf _ => ?_
  cases i with
  | succeeds ok =>
    cases hf
    exact ⟨hm, hr, hQ _⟩
  | _ => cases hf

section
variable {g : Modes X} (hu : m.Detached) (hm : m.Sound d g) (hr : m.rest d g)
include hu hm hr

theorem Detached.store (addr : UInt64) (bytes : List UInt8) :
    m.Sound (d.store t addr bytes) g ∧ m.rest (d.store t addr bytes) g :=
  ⟨hm.keep (fun _ => ⟨rfl, fun _ => rfl⟩) fun _ _ => hu.memory, hu.restMemory hr⟩

theorem Detached.record {e : Event} (he : e.boundary = true) :
    m.Sound (d.record e) g ∧ m.rest (d.record e) g :=
  ⟨hm.keep (fun _ => ⟨rfl, fun _ => rfl⟩) fun _ _ => hu.boundary he, hu.restBoundary he hr⟩

end

theorem copyout_safe {addr : UInt64} {bytes : List UInt8} {Q : Bool → Stand X → Prop}
    (hu : m.Detached) (hQ : ∀ ok, Q ok (H, (s, x))) :
    m.outline.Safe t (H, (s, x)) (copyout t addr bytes) Q := by
  refine access_same fun i d lock g b d' hm _ hr _ hf _ => ?_
  rcases copyout_cases rfl hf with ⟨-, rfl⟩ | ⟨-, k, rfl⟩
  · obtain ⟨hm', hr'⟩ := hu.store hm hr addr bytes
    exact ⟨hm', hr', hQ b⟩
  · obtain ⟨hm', hr'⟩ := hu.store hm hr addr (bytes.take k)
    obtain ⟨hm', hr'⟩ := hu.record hm' hr' (e := .badAddress t) rfl
    exact ⟨hm', hr', hQ b⟩

end Monitor

/-! The rules for the loops over the process table. -/

section
variable {M β : Type} {O : Outline (Fin NPROC) LockId Tasks M} {a : Set LockId × M}

theorem forEach_safe {body : Fin NPROC → KCode Unit} {Q : Unit → Set LockId × M → Prop}
    (P : ℕ → Set LockId × M → Prop)
    (h : ∀ (q : Fin NPROC) a, P q.val a → O.Safe t a (body q) fun _ a' => P (q.val+1) a')
    (h0 : P 0 a) (hQ : ∀ a, P NPROC a → Q () a) : O.Safe t a (forEach body) Q := by
  refine Outline.Safe.loop (fun i a => i ≤ NPROC ∧ P i a) (fun i a hi => ?_) ⟨by omega, h0⟩
  by_cases hlt : i < NPROC
  · rw [dif_pos hlt]
    exact .bind ((h ⟨i, hlt⟩ a hi.2).mono fun _ a' ha => .ret ⟨hlt, ha⟩)
  · obtain rfl : i = NPROC := by omega
    exact .ret (hQ a hi.2)

theorem forProcs_safe {body : Fin NPROC → KCode (Option β)}
    {Q : Option β → Set LockId × M → Prop} (P : ℕ → Set LockId × M → Prop)
    (h : ∀ (q : Fin NPROC) a, P q.val a → O.Safe t a (body q) fun r a' =>
      r.elim (P (q.val+1) a') fun b => Q (some b) a')
    (h0 : P 0 a) (hQ : ∀ a, P NPROC a → Q none a) : O.Safe t a (forProcs body) Q := by
  refine Outline.Safe.loop (fun i a => i ≤ NPROC ∧ P i a) (fun i a hi => ?_) ⟨by omega, h0⟩
  by_cases hlt : i < NPROC
  · rw [dif_pos hlt]
    refine .bind ((h ⟨i, hlt⟩ a hi.2).mono fun r a' ha => ?_)
    cases r with
    | none => exact .ret ⟨hlt, ha⟩
    | some b => exact .ret ha
  · obtain rfl : i = NPROC := by omega
    exact .ret (hQ a hi.2)

end
namespace Monitor

variable {m : Monitor X} {H : Set LockId} {s : SleepMode} {x : X} {β : Type}

/-! The functions that only decide who runs. -/

theorem relocked {g : Modes X} {H' : Set LockId} (h : Monitored W lax d (heldOf g) (sleepOf g))
    (hg : g t = (H, (s, x))) (hs : s.needs t ⊆ H') :
    Monitored W lax d (update (heldOf g) t H') (update (sleepOf g) t s) := by
  have hst := sleepOf_eq hg
  exact (h.relock (by rwa [hst])).stay hg

theorem needs_subset {g : Modes X} (h : Monitored W lax d (heldOf g) (sleepOf g))
    (hg : g t = (H, (s, x))) : s.needs t ⊆ H := by
  have := h.needs t
  rwa [sleepOf, heldOf, hg] at this

variable {Q : Unit → Stand X → Prop}

section
variable {g : Modes X} {s' : SleepMode} (hq : m.Quiet x) (hr : m.rest d g) (hg : g t = (H, (s, x)))
include hq hr hg

theorem Quiet.turn : m.rest d (update g t (H, (s', x))) :=
  hq.relock hr (by rw [hg]) fun _ _ _ => by rw [hg]

theorem Quiet.resched_turn {q : Fin NPROC} (hH : .proc q ∈ H) (hd : Resched q d d') :
    m.rest d' (update g t (H, (s', x))) :=
  hq.turn (hq.resched (t := t) hr (by rw [hg]) (by rwa [hg]) hd) hg

end

theorem Quiet.lock_proc (hq : m.Quiet x) {q : Fin NPROC}
    (hQ : .proc q ∉ H → Q () (insert (.proc q) H, (s, x))) :
    m.outline.Safe t (H, (s, x)) (lock (.proc q) : KCode Unit) Q := by
  refine lock_safe s x (fun d g hm _ _ hg _ => ?_) (fun d g hr hg _ => ?_) hQ
  · exact relocked hm hg ((needs_subset hm hg).trans (Set.subset_insert ..))
  · refine hq.relock hr (by rw [hg]) fun l hl _ => ?_
    rw [hg, Set.mem_insert_iff, or_iff_right (hl q)]

theorem Quiet.unlock_proc (hq : m.Quiet x) {q : Fin NPROC} (hs : s.needs t ⊆ H \ {.proc q})
    (hQ : Q () (H \ {.proc q}, (s, x))) :
    m.outline.Safe t (H, (s, x)) (unlock (.proc q) : KCode Unit) Q := by
  refine unlock_safe s x (fun d g hm _ hg => relocked hm hg hs) (fun d g hr hg => ?_) fun _ => hQ
  refine hq.relock hr (by rw [hg]) fun l hl _ => ?_
  rw [hg, Set.mem_sdiff, Set.mem_singleton_iff, and_iff_left (hl q)]

/-- Giving back the lock of a process that was taken last. -/
theorem Quiet.unlock_last (hq : m.Quiet x) {q : Fin NPROC} (hH : .proc q ∉ H) (hs : s.needs t ⊆ H)
    (hQ : Q () (H, (s, x))) :
    m.outline.Safe t (insert (.proc q) H, (s, x)) (unlock (.proc q) : KCode Unit) Q := by
  have heq := Set.insert_sdiff_self_of_notMem hH
  exact hq.unlock_proc (by rwa [heq]) (by rwa [heq])

end Monitor

theorem Chan.lock_ne_proc (chan : Chan) (q : Fin NPROC) : chan.lock ≠ .proc q := by
  cases chan <;> exact LockId.noConfusion

namespace Monitor

variable {m : Monitor X} {H : Set LockId} {s : SleepMode} {x : X} {β : Type}

theorem visit_safe (hs : m.Steady) (hq : m.Quiet x) {q : Fin NPROC} (hw : s.wakes chan i)
    (hlk : chan.lock ∈ H) (hqt : q ≠ t)
    (hskip : ∀ j : Fin NPROC, i ≤ j.val → j.val < q.val → j = t) :
    m.outline.Leads t (H, (s, x)) (do
      lock (.proc q)
      write fun d =>
        if (d.proc q).state = .SLEEPING ∧ (d.proc q).chan = chan then
          d.setProc q fun pr => { pr with state := .RUNNABLE }
        else d
      unlock (.proc q) : KCode Unit) (H, (.owes chan (q.val+1), x)) := by
  refine .bind (hq.lock_proc fun hH => .bind (write_safe fun d lock g hm hl hr hg _ => ?_))
  have hex := exclusive_of_held hl
  have hx : (g t).2.2 = x := by rw [hg]
  have hheld : .proc q ∈ heldOf g t := by rw [heldOf, hg]; exact Set.mem_insert ..
  -- From here on the caller counts as waking the channel.
  obtain ⟨mode, hmode, ht, hm⟩ : ∃ mode, mode = update (sleepOf g) t (.owes chan i) ∧
      mode t = .owes chan i ∧ Monitored m.may m.lax d (heldOf g) mode := by
    refine ⟨_, rfl, update_self .., hm.beginWake hex ?_ ?_⟩
    · rwa [sleepOf, hg]
    · rw [heldOf, hg]
      exact .inr hlk
  -- Whoever is on the way to sleep holds its own lock.
  have hcommits : mode q ≠ .commits chan := by
    intro hc
    have hn := hm.needs q
    rw [hc] at hn
    exact hqt (hex _ q t (hn rfl) hheld)
  obtain ⟨d', hd', hm', hr', hasleep⟩ : ∃ d', d' =
      (if (d.proc q).state = .SLEEPING ∧ (d.proc q).chan = chan then
        d.setProc q fun pr => { pr with state := .RUNNABLE } else d) ∧
      Monitored m.may m.lax d' (heldOf g) mode ∧ m.rest d' g ∧ ¬Asleep d' mode q chan := by
    refine ⟨_, rfl, ?_⟩
    split_ifs with hc
    · have hd' : Resched q d (d.setProc q fun pr => { pr with state := .RUNNABLE }) :=
        ⟨.RUNNABLE, (d.proc q).chan, by rw [hc.1]; trivial, trivial, rfl⟩
      refine ⟨hm.rouse (fun j hj => Tasks.setProc_of_ne d hj _) (by rw [hc.1]; decide)
        (by rw [Tasks.setProc_self]; simp) fun c j hw => hs.resched hw hd',
        hq.resched hr hx hheld hd', ?_⟩
      rintro (ha | ha)
      · rw [Tasks.setProc_self] at ha
        cases ha.1
      · exact hcommits ha
    · exact ⟨hm, hr, fun ha => ha.elim hc hcommits⟩
  rw [← hd']
  refine ⟨.owes chan (q.val+1), x, ?_, hq.turn hr' hg,
    hq.unlock_last hH (Set.singleton_subset_iff.mpr hlk) rfl⟩
  have hwoke := hm'.woke (n := q.val+1) ht fun j hij hjq => by
    by_cases hjq' : j = q
    · rwa [hjq']
    · rw [hskip j hij (by omega)]
      exact hm'.not_asleep (by rw [ht]; simp) (by rw [ht]; simp)
  rwa [hmode, update_idem] at hwoke

theorem wakeup_safe (chan : Chan) (hs : m.Steady) (hq : m.Quiet x) (hw : s.wakes chan 0)
    (hlk : chan.lock ∈ H) : m.outline.Safe t (H, (s, x)) (wakeup t chan) fun _ a =>
      a = (H, (.owes chan NPROC, x)) := by
  -- The caller skips its own slot, so that the mode may lag behind by one.
  refine .bind (forEach_safe (fun n a => ∃ i s, a = (H, (s, x)) ∧ s.wakes chan i ∧ i ≤ n ∧
    ∀ j : Fin NPROC, i ≤ j.val → j.val < n → j = t) (fun q a ha => ?_) ?_ fun a ha => ?_)
  · obtain ⟨i, s, rfl, hw, hi, hskip⟩ := ha
    by_cases hqt : q = t
    · rw [if_neg (not_not.mpr hqt)]
      refine .ret ⟨i, s, rfl, hw, by omega, fun j hij hj => ?_⟩
      by_cases hjq : j.val = q.val
      · exact (Fin.ext hjq).trans hqt
      · exact hskip j hij (by omega)
    · rw [if_pos hqt]
      refine (visit_safe hs hq hw hlk hqt hskip).mono fun _ a ha =>
        ⟨q.val+1, _, ha, .inl rfl, le_rfl, ?_⟩
      intro j hij hj
      omega
  · exact ⟨0, s, rfl, hw, le_rfl, fun j _ hj => absurd hj (by omega)⟩
  · obtain ⟨i, s, rfl, hw, hi, hskip⟩ := ha
    refine write_safe fun d lock g hm hl hr hg _ => ?_
    have hex := exclusive_of_held hl
    have hx : (g t).2.2 = x := by rw [hg]
    have hb := hm.beginWake (t := t) hex (by rwa [sleepOf, hg]) (by rwa [heldOf, hg])
    have hm' := hb.woke (n := NPROC) (update_self ..) fun j hij hj => by
      rw [hskip j hij hj]
      exact hb.not_asleep (by rw [update_self]; simp) (by rw [update_self]; simp)
    rw [update_idem] at hm'
    refine ⟨.owes chan NPROC, x, ?_, ?_, rfl⟩
    · exact hm'.spoil hex (update_self ..) (.inr le_rfl)
        (fun j => ⟨rfl, rfl⟩) fun c j => hs.woken
    · exact hq.turn (hq.woken hr hx) hg

theorem scheduler_safe (hs : m.Steady) (hq : m.Quiet x) :
    m.outline.Safe t (H, (.off, x)) (scheduler t) fun _ a =>
      a = (insert (.proc t) H, (.awake, x)) := by
  refine Outline.Safe.loop (fun _ a => a = (H, (.off, x))) (fun _ a ha => ?_) rfl
  subst ha
  refine .bind (hq.lock_proc fun hH => .bind (access_safe fun _ d lock g b d' hm hl hr hg hf _ => ?_))
  have ht := sleepOf_eq hg
  split_ifs at hf with hrun
  · obtain ⟨rfl, hdef⟩ := Prod.mk.inj (Option.some.inj hf)
    have hd' : Resched t d d' :=
      ⟨.RUNNING, (d.proc t).chan, by rw [hrun]; trivial, trivial, hdef.symm⟩
    have hs' : (d'.proc t).state = .RUNNING := by rw [← hdef, Tasks.setProc_self]
    refine ⟨.awake, x, ?_, ?_, .ret rfl⟩
    · refine hm.shift (exclusive_of_held hl) (fun j hj => ?_) (Set.empty_subset _) (fun _ => hs')
        (by simp) (by simp [ht]) (by simp)
        (fun c ha => absurd ha (not_asleep_update (by rw [hs']; simp) (by simp)))
        fun c j hw => .inl (hs.resched hw hd')
      rw [← hdef, Tasks.setProc_of_ne _ hj]
    · exact hq.resched_turn hr hg (Set.mem_insert ..) hd'
  · cases hf
    exact ⟨.off, x, hm.stay hg, by rwa [← hg, update_eq_self],
      .bind (hq.unlock_last hH (Set.empty_subset _) (.ret rfl))⟩

theorem sched_safe (hs : m.Steady) (hq : m.Quiet x) (hH : .proc t ∈ H) :
    m.outline.Leads t (H, (.off, x)) (sched t) (H, (.awake, x)) := by
  refine .bind (access_same fun _ d lock g b d' hm hl hr hg hf _ => ?_)
  obtain ⟨-, hf⟩ := Option.ite_none_left_eq_some.mp hf
  cases hf
  refine ⟨hm, hr, .bind (hq.unlock_proc (Set.empty_subset _) ?_)⟩
  refine (scheduler_safe hs hq).mono fun _ a ha => ha.trans ?_
  rw [Set.insert_sdiff_singleton, Set.insert_eq_of_mem hH]

theorem yield_safe (hs : m.Steady) (hq : m.Quiet x) :
    m.outline.Keeps t (H, (.awake, x)) (yield t) := by
  refine .bind (hq.lock_proc fun hH => .bind (write_safe fun d lock g hm hl hr hg _ => ?_))
  have ht := sleepOf_eq hg
  have hrun := hm.running t (by rw [ht]; simp)
  have hd' : Resched t d (d.setProc t fun pr => { pr with state := .RUNNABLE }) :=
    ⟨.RUNNABLE, (d.proc t).chan, by rw [hrun]; trivial, trivial, rfl⟩
  refine ⟨.off, x, ?_, hq.resched_turn hr hg (Set.mem_insert ..) hd',
    .andThen (sched_safe hs hq (Set.mem_insert ..)) fun _ =>
      hq.unlock_last hH (Set.empty_subset _) rfl⟩
  refine hm.shift (exclusive_of_held hl) (fun j hj => Tasks.setProc_of_ne d hj _)
    (Set.empty_subset _) (by simp) (by simp) (by simp [ht]) (by simp)
    (fun c ha => absurd ha (not_asleep_update ?_ (by simp)))
    fun c j hw => .inl (hs.resched hw hd')
  rw [Tasks.setProc_self]
  simp

variable {Q : Unit → Stand X → Prop} {l : LockId}

theorem unlock_settled (x' : X) (hs : s.settled) (hl : l ∉ H)
    (hrest : ∀ d g, m.rest d g → g t = (insert l H, (s, x)) →
      m.rest d (update g t (H, (.awake, x')))) (hQ : Q () (H, (.awake, x'))) :
    m.outline.Safe t (insert l H, (s, x)) (unlock l : KCode Unit) Q := by
  have heq := Set.insert_sdiff_self_of_notMem hl
  refine unlock_safe .awake x' (fun d g hm hex hg => ?_) (by rwa [heq]) fun _ => by rwa [heq]
  have hm' := hm.settle hex (t := t) (by rwa [sleepOf, hg])
  refine hm'.relock ?_
  rw [update_self]
  exact Set.empty_subset _

theorem clockintr_safe (hs : m.Steady) (hq : m.Quiet x) :
    m.outline.Keeps t (H, (.awake, x)) (clockintr t) := by
  refine .bind (lock_safe .awake x (fun d g hm _ _ hg _ => ?_) (fun d g hr hg _ => ?_)
    fun hH => .bind (write_safe fun d lock g hm hl hr hg _ => ?_))
  · exact relocked hm hg (Set.empty_subset _)
  · refine hq.relock hr (by rw [hg]) fun l _ hl => ?_
    rw [hg, Set.mem_insert_iff, or_iff_right hl]
  have hx : (g t).2.2 = x := by rw [hg]
  have hex := exclusive_of_held hl
  refine ⟨.owes .ticks 0, x, ?_, ?_,
    .andThen (wakeup_safe .ticks hs hq (.inl rfl) (Set.mem_insert LockId.ticks H)) fun _ => ?_⟩
  · have hset : (sleepOf g t).settled := by rw [sleepOf, hg]; trivial
    have hlk : Chan.ticks.lock ∈ heldOf g t := by rw [heldOf, hg]; exact Set.mem_insert ..
    by_cases hlax : m.lax .ticks
    · exact (hm.owe hex hset hlk).spoil hex (update_self ..) (.inl hlax)
        (fun j => ⟨rfl, rfl⟩) fun c j hc => hs.tick (.inl hc)
    · exact (hm.owe hex hset hlk).keep (fun j => ⟨rfl, fun _ => rfl⟩)
        fun c j => hs.tick (.inr hlax)
  · exact hq.turn (hq.tick hr hx) hg
  · refine unlock_settled x le_rfl hH (fun d g hr hg => ?_) rfl
    refine hq.relock hr (by rw [hg]) fun l _ hl => ?_
    rw [hg, Set.mem_insert_iff, or_iff_right hl]

theorem preempt_safe (hs : m.Steady) (hq : m.Quiet x) :
    m.outline.Keeps t (H, (.awake, x)) (preempt t) := by
  refine .loop_same fun _ => .bind (access_same fun c d lock g b d' hm _ hr _ hf _ => ?_)
  have hd : d' = d := by
    cases c <;> simp_all
  subst hd
  refine ⟨hm, hr, ?_⟩
  cases b with
  | false => exact .ret rfl
  | true =>
    exact .andThen (clockintr_safe hs hq) fun _ => .andThen (yield_safe hs hq) fun _ => .ret rfl

/-- In mode `x` the rest of the invariant does not care which locks a process holds. -/
structure Idle (m : Monitor X) (x : X) : Prop extends m.Quiet x where
  anyLocks : ∀ {d g t H s}, m.rest d g → (g t).2.2 = x → m.rest d (update g t (H, (s, x)))

theorem Idle.lock (hq : m.Idle x) (hQ : l ∉ H → Q () (insert l H, (.awake, x))) :
    m.outline.Safe t (H, (.awake, x)) (lock l : KCode Unit) Q :=
  lock_safe .awake x (fun _ _ hm _ _ hg _ => relocked hm hg (Set.empty_subset _))
    (fun _ _ hr hg _ => hq.anyLocks hr (by rw [hg])) hQ

theorem Idle.lock_owe (hq : m.Idle x) (chan : Chan)
    (hQ : chan.lock ∉ H → Q () (insert chan.lock H, (.owes chan 0, x))) :
    m.outline.Safe t (H, (.awake, x)) (Code.lock chan.lock : KCode Unit) Q := by
  refine lock_safe (.owes chan 0) x (fun d g hm hex _ hg hfree => ?_)
    (fun _ _ hr hg _ => hq.anyLocks hr (by rw [hg])) hQ
  have hs := sleepOf_eq hg
  have hH := heldOf_eq hg
  have hm' : Monitored m.may m.lax d (update (heldOf g) t (insert chan.lock H))
      (update (sleepOf g) t .awake) := relocked hm hg (Set.empty_subset _)
  rw [← hs, update_eq_self] at hm'
  rw [← hH] at hm' ⊢
  refine hm'.owe (hex.insert hfree) (by rw [hs]; trivial) ?_
  rw [update_self]
  exact Set.mem_insert ..

theorem Idle.unlock (hq : m.Idle x) (hs : s.settled) (hl : l ∉ H) (hQ : Q () (H, (.awake, x))) :
    m.outline.Safe t (insert l H, (s, x)) (unlock l : KCode Unit) Q :=
  unlock_settled x hs hl (fun _ _ hr hg => hq.anyLocks hr (by rw [hg])) hQ

/-- `sleep` on a channel whose lock the process holds, and where it may sleep. -/
theorem sleep_safe (chan : Chan) {x' : X} (hs : m.Steady) (hq : m.Idle x)
    (hready : ∀ d g, m.Sound d g → Exclusive (heldOf g) →
      m.rest d g → g t = (H, (s, x')) →
      Monitored m.may m.lax d (heldOf g) (update (sleepOf g) t (.ready chan)))
    (hrest : ∀ d g H', m.rest d g → g t = (H, (s, x')) →
      m.rest d (update g t (H', (.ready chan, x)))) :
    m.outline.Leads t (H, (s, x')) (sleep t chan chan.lock) (H, (.awake, x)) := by
  have hquiet := hq.toQuiet
  refine .bind (lock_safe (.ready chan) x (fun d g hm hex hr hg _ => ?_)
    (fun d g hr hg _ => hrest d g _ hr hg) fun hH => .bind ?_)
  · have hm' := hready d g hm hex hr hg
    have hn := hm'.needs t
    rw [heldOf, hg] at hn
    exact hm'.relock (hn.trans (Set.subset_insert ..))
  -- Giving back the lock of the channel with `p->lock` in hand.
  refine unlock_safe (.commits chan) x (fun d g hm hex hg => ?_)
    (fun d g hr hg => hq.anyLocks hr (by rw [hg])) fun hin => ?_
  · have ht := sleepOf_eq hg
    have hproc := heldOf_eq hg
    have hm' : Monitored m.may m.lax d (heldOf g) (update (sleepOf g) t (.commits chan)) := by
      refine hm.shift hex (fun _ _ => rfl) ?_ (fun _ => hm.running t (by rw [ht]; simp)) (by simp)
        (by simp [ht]) (by simp) (fun c ha => .inr ?_) fun c j hw => .inl hw
      · rw [hproc]
        exact Set.singleton_subset_iff.mpr (Set.mem_insert ..)
      · rcases ha with ⟨ha, -⟩ | ha
        · rw [hm.running t (by rw [ht]; simp)] at ha
          cases ha
        · rw [update_self] at ha
          rw [ht, SleepMode.commits.inj ha]
    refine hm'.relock ?_
    rw [update_self]
    exact Set.singleton_subset_iff.mpr ⟨Set.mem_insert .., (chan.lock_ne_proc t).symm⟩
  have hlk : chan.lock ∈ H := hin.resolve_left (chan.lock_ne_proc t)
  refine .bind (write_safe fun d lock g hm hl hr hg _ => ?_)
  have ht := sleepOf_eq hg
  have hmem : .proc t ∈ insert (.proc t) H \ {chan.lock} :=
    ⟨Set.mem_insert .., (chan.lock_ne_proc t).symm⟩
  have hrun := hm.running t (by rw [ht]; simp)
  have hd' : Resched t d (d.setProc t fun pr => { pr with chan := chan, state := .SLEEPING }) :=
    ⟨.SLEEPING, chan, by rw [hrun]; trivial, trivial, rfl⟩
  refine ⟨.off, x, ?_, ?_, .andThen (sched_safe hs hquiet hmem) fun _ => ?_⟩
  · refine hm.shift (exclusive_of_held hl) (fun j hj => Tasks.setProc_of_ne d hj _)
      (Set.empty_subset _) (by simp) (by simp) (by simp [ht]) (by simp) (fun c ha => .inl ?_)
      fun c j hw => .inl (hs.resched hw hd')
    rcases ha with ⟨-, ha⟩ | ha
    · rw [Tasks.setProc_self] at ha
      exact .inr (by rw [ht, ← ha])
    · rw [update_self] at ha
      cases ha
  · exact hquiet.resched_turn hr hg hmem hd'
  -- Awake again.
  refine .bind (access_same fun _ d lock g b d' hm hl hr hg hf _ => ?_)
  obtain ⟨-, hf⟩ := Prod.mk.inj (Option.some.inj hf)
  have ht := sleepOf_eq hg
  have hx : (g t).2.2 = x := by rw [hg]
  have hheld : .proc t ∈ (g t).1 := by rw [hg]; exact hmem
  have hrun := hm.running t (by rw [ht]; simp)
  have hd' : Resched t d d' := ⟨(d.proc t).state, .null, by rw [hrun]; trivial, by
    rw [hrun]; trivial, hf.symm⟩
  refine ⟨?_, hquiet.resched hr hx hheld hd', .bind (hquiet.unlock_proc (Set.empty_subset _) ?_)⟩
  · refine hm.keep_slot (q := t) (fun j hj => ?_) ?_ (fun hsl => ?_) fun c j hw => hs.resched hw hd'
    · rw [← hf, Tasks.setProc_of_ne _ hj]
    · rw [← hf, Tasks.setProc_self]
    · rw [hrun] at hsl
      cases hsl
  refine .andThen (preempt_safe hs hquiet) fun _ => ?_
  refine lock_safe .awake x (fun d g hm _ _ hg _ => relocked hm hg (Set.empty_subset _))
    (fun d g hr hg _ => hq.anyLocks hr (by rw [hg])) fun _ => ?_
  congr 1
  rw [Set.sdiff_sdiff_comm, Set.insert_sdiff_self_of_notMem hH, Set.insert_sdiff_singleton,
    Set.insert_eq_of_mem hlk]

/-- `killed`. Once it has answered 0, the process may go on in another mode. -/
theorem killed_then {Q : Bool → Stand X → Prop} (hq : m.Quiet x)
    (hc : ∀ c, s ≠ .commits c)
    (htrue : ∀ d g, m.rest d g → g t = (insert (.proc t) H, (s, x)) →
      (d.proc t).killed = true → Q true (H, (s, x)))
    (hfalse : ∀ d g, m.Sound d g → Exclusive (heldOf g) →
      m.rest d g → g t = (insert (.proc t) H, (s, x)) → (d.proc t).killed = false →
      ∃ s' x', m.Quiet x' ∧ (∀ c, s' ≠ .commits c) ∧
        Monitored m.may m.lax (d.record (.notKilled t)) (heldOf g) (update (sleepOf g) t s') ∧
        m.rest (d.record (.notKilled t)) (update g t (insert (.proc t) H, (s', x'))) ∧
        Q false (H, (s', x'))) :
    m.outline.Safe t (H, (s, x)) (killed t) Q := by
  refine .bind (hq.lock_proc fun hH => .bind (access_safe fun _ d lock g b d' hm hl hr hg hf _ => ?_))
  have hs := sleepOf_eq hg
  -- Only a process that commits to sleep needs its own lock.
  have hneeds (s' : SleepMode) (hc : ∀ c, s' ≠ .commits c) (hn : s'.needs t ⊆ insert (.proc t) H) :
      s'.needs t ⊆ H := by
    intro l hl
    refine (hn hl).resolve_left ?_
    rintro rfl
    cases s' with
    | awake | off => exact hl
    | ready c | owes c => exact c.lock_ne_proc t hl.symm
    | commits c => exact hc c rfl
  split_ifs at hf with hk
  · cases hf
    exact ⟨s, x, hm.stay hg, by rwa [← hg, update_eq_self], .bind (hq.unlock_last hH
      (hneeds s hc (needs_subset hm hg)) (.ret (htrue d g hr hg hk)))⟩
  · cases hf
    obtain ⟨s', x', hq', hc', hm', hr', hQ⟩ :=
      hfalse d g hm (exclusive_of_held hl) hr hg (Bool.eq_false_iff.mpr hk)
    have hn := hm'.needs t
    rw [update_self, heldOf, hg] at hn
    exact ⟨s', x', hm', hr', .bind (hq'.unlock_last hH (hneeds s' hc' hn) (.ret hQ))⟩

/-- `killed`, where the process goes on as it was as far as sleeping goes. -/
theorem killed_safe {Q : Bool → Stand X → Prop} (hq : m.Quiet x)
    (hc : ∀ c, s ≠ .commits c) (hmay : ∀ c j d, m.may c j d → m.may c j (d.record (.notKilled t)))
    (htrue : ∀ d g, m.rest d g → g t = (insert (.proc t) H, (s, x)) →
      (d.proc t).killed = true → Q true (H, (s, x)))
    (hfalse : ∀ d g, m.rest d g → g t = (insert (.proc t) H, (s, x)) →
      (d.proc t).killed = false → ∃ x', m.Quiet x' ∧
        m.rest (d.record (.notKilled t)) (update g t (insert (.proc t) H, (s, x'))) ∧
        Q false (H, (s, x'))) :
    m.outline.Safe t (H, (s, x)) (killed t) Q := by
  refine killed_then hq hc htrue fun d g hm _ hr hg hk => ?_
  obtain ⟨x', hq', hr', hQ⟩ := hfalse d g hr hg hk
  exact ⟨s, x', hq', hc,
    .stay (hm.keep (fun j => ⟨rfl, fun _ => rfl⟩) fun c j => hmay c j d) hg, hr', hQ⟩

theorem kkill_safe {pid : Int32} (hs : m.Steady) (hq : m.Quiet x)
    (hkill : ∀ d lock g q, m.Sound d g → Held lock g → m.rest d g →
      g t = (insert (.proc q) H, (.awake, x)) → m.ok t d lock (d.kill q pid).2 → m.Sound (d.kill q pid).2 g ∧ m.rest (d.kill q pid).2 g) :
    m.outline.Keeps t (H, (.awake, x)) (kkill t pid) := by
  refine .bind ((forProcs_safe (fun _ a => a = (H, (.awake, x)))
    (Q := fun _ a => a = (H, (.awake, x))) (fun q a ha => ?_) rfl fun a ha => ha).mono
    fun r a ha => .ret ha)
  subst ha
  refine .andThen (preempt_safe hs hq) fun _ => ?_
  refine .bind (hq.lock_proc fun hH => .bind (access_same fun _ d lock g b d' hm hl hr hg hf hok => ?_))
  obtain rfl : (d.kill q pid).2 = d' := congrArg Prod.snd (Option.some.inj hf)
  obtain ⟨hm', hr'⟩ := hkill d lock g q hm hl hr hg hok
  refine ⟨hm', hr', .bind (hq.unlock_last hH (Set.empty_subset _) ?_)⟩
  cases b with
  | false => exact .ret rfl
  | true => exact .ret rfl

end Monitor

/-- What `kkill` does to a slot, as far as sleeping goes: it can only wake. -/
theorem Tasks.kill_state (d : Tasks) (q : Fin NPROC) (pid : Int32) (j : Fin NPROC) :
    ((d.kill q pid).2.proc j).chan = (d.proc j).chan ∧
      (((d.kill q pid).2.proc j).state = (d.proc j).state ∨
        j = q ∧ (d.proc q).state = .SLEEPING ∧ ((d.kill q pid).2.proc j).state = .RUNNABLE) := by
  rw [Tasks.kill]
  split_ifs with hpid
  · by_cases hj : j = q
    · subst hj
      rw [Tasks.hit, Tasks.setProc_self]
      refine ⟨rfl, ?_⟩
      by_cases hsl : (d.proc j).state = .SLEEPING
      · exact .inr ⟨rfl, hsl, if_pos hsl⟩
      · exact .inl (if_neg hsl)
    · rw [Tasks.hit_of_ne _ hj]
      exact ⟨rfl, .inl rfl⟩
  · exact ⟨rfl, .inl rfl⟩

theorem Monitored.kill {q : Fin NPROC} {pid : Int32} (h : Monitored W lax d held mode)
    (hW : ∀ c j, W c j d → Asleep (d.kill q pid).2 mode j c ∨ mode j = .ready c →
      W c j (d.kill q pid).2) :
    Monitored W lax (d.kill q pid).2 held mode := by
  refine h.change (fun j hj => ?_) (fun j c ha => ?_) (fun j c hj hw => hW c j hw (.inr hj))
    fun j c ha hw => .inl (hW c j hw (.inl ha))
  · rcases (Tasks.kill_state d q pid j).2 with hs | ⟨rfl, hs, -⟩
    · rw [hs]
      exact h.running j hj
    · rw [h.running j hj] at hs
      cases hs
  · rcases ha with ⟨hs, hc⟩ | ha
    · rw [(Tasks.kill_state d q pid j).1] at hc
      rcases (Tasks.kill_state d q pid j).2 with hs' | ⟨-, -, hs'⟩
      · exact .inl ⟨hs' ▸ hs, hc⟩
      · rw [hs'] at hs
        cases hs
    · exact .inr ha

/-- Nobody sleeps. -/
def NoSleeper (d : Tasks) : Prop := ∀ p, (d.proc p).state ≠ .SLEEPING

theorem processes_noSleeper (n : ℕ) : NoSleeper (processes n) := by
  intro p
  rw [processes_state]
  split <;> simp

namespace Monitor

variable {m : Monitor X} {x : X} {calls : Call → Bool} {code : Fin NPROC → KCode Unit}

theorem sysReturn_safe {c : Call} (hu : m.Detached) (r : Option ℤ) :
    m.outline.Keeps t (∅, (.awake, x)) (sysReturn t c r) := by
  cases r with
  | none => exact .ret rfl
  | some r =>
    refine access_same fun i d lock g b d' hm _ hr _ hf _ => ?_
    cases hf
    obtain ⟨hm', hr'⟩ := hu.record hm hr (e := .returned t c r _) rfl
    exact ⟨hm', hr', rfl⟩

/-- A process that makes calls which follow the outline follows it for life. -/
theorem life_safe (hs : m.Steady) (hq : m.Quiet x) (hu : m.Detached)
    (hcall : ∀ c, calls c → (∀ status, c ≠ .exit status) →
      m.outline.Safe t (∅, (.awake, x)) (perform t c) fun _ a => a = (∅, (.awake, x)))
    (hexit : ∀ status, calls (.exit status) →
      m.outline.Safe t (∅, (.awake, x)) (kexit t status) fun _ a => a = (∅, (.off, x))) :
    m.outline.Safe t (∅, (.off, x)) (life calls t) fun _ _ => True := by
  refine Outline.Safe.loop (fun _ a => a = (∅, (.off, x))) (fun _ a ha => ?_) rfl
  subst ha
  refine .andThen (scheduler_safe hs hq) fun _ => ?_
  refine .bind (hq.unlock_last (Set.notMem_empty _) (Set.empty_subset _) ?_)
  refine .bind (Outline.Safe.mono ?_ fun _ a (ha : a = (∅, (.off, x))) => .ret ha)
  refine Outline.Safe.loop (fun _ a => a = (∅, (.awake, x))) (fun _ a ha => ?_) rfl
  subst ha
  refine .bind (access_same fun i d lock g c d' hm _ hr _ hf _ => ?_)
  cases i with
  | call c' =>
    obtain ⟨hc, he⟩ := Option.ite_none_right_eq_some.mp hf
    cases he
    obtain ⟨hm', hr'⟩ := hu.record hm hr (e := .called t c') rfl
    refine ⟨hm', hr', ?_⟩
    have hother (hne : ∀ status, c' ≠ .exit status) := hcall c' hc hne
    cases c' with
    | exit status => exact .andThen (hexit status hc) fun _ => .ret rfl
    | _ => exact .andThen (hother (by simp)) fun r => .andThen (sysReturn_safe hu r) fun _ => .ret rfl
  | store addr b =>
    cases hf
    obtain ⟨hm', hr'⟩ := hu.store hm hr addr [b]
    exact ⟨hm', hr', .ret rfl⟩
  | _ => cases hf

theorem reached {w : KPool} (hd : NoSleeper d) (hrest : m.rest d fun _ => (∅, (.off, x)))
    (hlife : ∀ t, m.outline.Safe t (∅, (.off, x)) (code t) fun _ _ => True)
    (hr : Pool.Run m.ok ⟨d, fun _ => none, code⟩ w) :
    ∃ g, Monitored m.may m.lax w.data (heldOf g) (sleepOf g) ∧ m.rest w.data g ∧
      Held w.lock g := by
  have hinv : m.outline.inv {d} d fun _ => (∅, (.off, x)) := by
    refine ⟨⟨fun j => Set.empty_subset _, fun j => absurd rfl, fun j c hj => ?_,
      fun u c i j hu => ?_, fun j c ha => ?_⟩, hrest⟩
    · cases hj
    · cases hu
    · rcases ha with ha | ha
      · exact absurd ha.1 (hd j)
      · cases ha
  have hheld : Held (fun _ => none) fun _ : Fin NPROC => ((∅ : Set LockId), (SleepMode.off, x)) := by
    intro l t
    simp
  obtain ⟨_, g, hi, hl⟩ := Outline.invariant (O := m.outline) hinv hheld hlife hr
  exact ⟨g, hi.1, hi.2, hl⟩

end Monitor
end Xv6.Threads
