import Xv6.KernelThreads

/-! What the trace of a run says about the exits, waits and kills of the processes in each slot. -/
namespace Xv6.Threads

/-- The pids and statuses with which the processes of a slot have exited, latest first. -/
def exitsOf (c : Fin NPROC) : List Event → List (Int32 × Int32) :=
  List.filterMap fun
    | .exit p pid status => if p = c then some (pid, status) else none
    | _ => none

/-- The pids and statuses that `kwait` has reported for the slot, latest first. -/
def reapsOf (c : Fin NPROC) : List Event → List (Int32 × Int32) :=
  List.filterMap fun
    | .reaped _ child _ pid status => if child = c then some (pid, status) else none
    | _ => none

/-- The exit of a zombie has yet to be reported. -/
def unreported (pr : Task) : List (Int32 × Int32) :=
  if pr.state = .ZOMBIE then [(pr.pid, pr.xstate)] else []

theorem unreported_zombie {pr : Task} (h : pr.state = .ZOMBIE) :
    unreported pr = [(pr.pid, pr.xstate)] := if_pos h

theorem unreported_of_ne {pr : Task} (h : pr.state ≠ .ZOMBIE) : unreported pr = [] := if_neg h

/-- The events that concern exits and waits. -/
def Event.accounts : Event → Bool
  | .exit .. | .reaped .. | .waitFailed .. => true
  | _ => false

/-- Every exit is reported once, with its pid and its status, by the parent, or else the zombie is
still there; also after a `kwait` that found it could not copy out the status. -/
structure Ledger (proc : Fin NPROC → Task) (trace : List Event) : Prop where
  account : ∀ c, exitsOf c trace = unreported (proc c) ++ reapsOf c trace
  byParent : ∀ p c parent pid status, .reaped p c parent pid status ∈ trace → parent = some p
  kept : ∀ later earlier p c, trace = later ++ .waitFailed p c :: earlier →
    (reapsOf c earlier).length < (exitsOf c earlier).length

variable {proc proc' : Fin NPROC → Task} {trace : List Event} {e : Event} {p q : Fin NPROC}
  {pid : Int32}

namespace Ledger

theorem start (h : ∀ c, (proc c).state ≠ .ZOMBIE) : Ledger proc [] where
  account c := by rw [unreported_of_ne (h c)]; rfl
  byParent := by simp
  kept later earlier p c hsplit := by simp at hsplit

section
variable (h : Ledger proc trace)
include h

theorem congr (hp : ∀ c, unreported (proc' c) = unreported (proc c)) : Ledger proc' trace :=
  ⟨fun c => by rw [hp c]; exact h.account c, h.byParent, h.kept⟩

theorem alter (hothers : ∀ j, j ≠ q → proc' j = proc j)
    (hs : (proc q).state ≠ .ZOMBIE) (hs' : (proc' q).state ≠ .ZOMBIE) : Ledger proc' trace := by
  refine h.congr fun c => ?_
  by_cases hc : c = q
  · rw [hc, unreported_of_ne hs, unreported_of_ne hs']
  · rw [hothers c hc]

theorem kept_cons
    (he : ∀ p c, e = .waitFailed p c → (reapsOf c trace).length < (exitsOf c trace).length)
    (later earlier : List Event) (p c : Fin NPROC)
    (hsplit : e :: trace = later ++ .waitFailed p c :: earlier) :
    (reapsOf c earlier).length < (exitsOf c earlier).length := by
  cases later with
  | nil =>
    obtain ⟨rfl, rfl⟩ := List.cons.inj hsplit
    exact he p c rfl
  | cons e' later => exact h.kept later earlier p c (List.cons.inj hsplit).2

theorem byParent_cons
    (he : ∀ p c parent pid status, e = .reaped p c parent pid status → parent = some p)
    (p c : Fin NPROC) (parent : Option (Fin NPROC)) (pid status : Int32)
    (hmem : .reaped p c parent pid status ∈ e :: trace) : parent = some p := by
  rcases List.mem_cons.mp hmem with rfl | hmem
  · exact he p c parent pid status rfl
  · exact h.byParent p c parent pid status hmem

theorem other (he : e.accounts = false) : Ledger proc (e :: trace) := by
  have hexits (c : Fin NPROC) : exitsOf c (e :: trace) = exitsOf c trace := by
    cases e <;> first | rfl | cases he
  have hreaps (c : Fin NPROC) : reapsOf c (e :: trace) = reapsOf c trace := by
    cases e <;> first | rfl | cases he
  refine ⟨fun c => ?_, h.byParent_cons ?_, h.kept_cons ?_⟩
  · rw [hexits, hreaps]
    exact h.account c
  · rintro p c parent pid status rfl
    cases he
  · rintro p c rfl
    cases he

theorem exit {status : Int32} (hothers : ∀ j, j ≠ q → proc' j = proc j)
    (hs : (proc q).state ≠ .ZOMBIE) (hs' : (proc' q).state = .ZOMBIE)
    (hpid : (proc' q).pid = (proc q).pid) (hstatus : (proc' q).xstate = status) :
    Ledger proc' (.exit q (proc q).pid status :: trace) := by
  refine ⟨fun c => ?_, h.byParent_cons (by simp), h.kept_cons (by simp)⟩
  · have hreaps : reapsOf c (.exit q (proc q).pid status :: trace) = reapsOf c trace := rfl
    by_cases hc : c = q
    · subst hc
      have hexits : exitsOf c (.exit c (proc c).pid status :: trace) =
          ((proc c).pid, status) :: exitsOf c trace := by simp [exitsOf]
      rw [hexits, h.account c, unreported_of_ne hs, unreported_zombie hs', hpid, hstatus]
      rfl
    · have hexits : exitsOf c (.exit q (proc q).pid status :: trace) = exitsOf c trace := by
        simp [exitsOf, Ne.symm hc]
      rw [hexits, hothers c hc]
      exact h.account c

theorem reap (hothers : ∀ j, j ≠ q → proc' j = proc j)
    (hs : (proc q).state = .ZOMBIE) (hs' : (proc' q).state ≠ .ZOMBIE) :
    Ledger proc' (.reaped p q (some p) (proc q).pid (proc q).xstate :: trace) := by
  refine ⟨fun c => ?_, h.byParent_cons fun p' c parent pid status he => ?_,
    h.kept_cons (by simp)⟩
  · have hexits : exitsOf c (.reaped p q (some p) (proc q).pid (proc q).xstate :: trace) =
        exitsOf c trace := rfl
    rw [hexits]
    by_cases hc : c = q
    · subst hc
      have hreaps : reapsOf c (.reaped p c (some p) (proc c).pid (proc c).xstate :: trace) =
          ((proc c).pid, (proc c).xstate) :: reapsOf c trace := by simp [reapsOf]
      rw [hreaps, h.account c, unreported_zombie hs, unreported_of_ne hs']
      rfl
    · have hreaps : reapsOf c (.reaped p q (some p) (proc q).pid (proc q).xstate :: trace) =
          reapsOf c trace := by simp [reapsOf, Ne.symm hc]
      rw [hreaps, hothers c hc]
      exact h.account c
  · obtain ⟨rfl, -, rfl, -⟩ := Event.reaped.inj he
    rfl

theorem fail (hs : (proc q).state = .ZOMBIE) :
    Ledger proc (.waitFailed p q :: trace) := by
  refine ⟨h.account, h.byParent_cons (by simp), h.kept_cons fun p' c he => ?_⟩
  obtain ⟨-, rfl⟩ := Event.waitFailed.inj he
  rw [h.account q, unreported_zombie hs]
  simp

/-- After a `kwait` that could not copy out the status, the zombie is there until it is
reported. -/
theorem zombie_of_failed {later earlier : List Event} {c : Fin NPROC}
    (hsplit : trace = later ++ .waitFailed p c :: earlier) (hlater : reapsOf c later = []) :
    (proc c).state = .ZOMBIE := by
  have hkept := h.kept later earlier p c hsplit
  by_contra hs
  have hacc := h.account c
  rw [unreported_of_ne hs, List.nil_append] at hacc
  have hreaps : reapsOf c trace = reapsOf c earlier := by
    calc reapsOf c trace = reapsOf c later ++ reapsOf c earlier := by
          rw [hsplit, reapsOf, List.filterMap_append]
          rfl
      _ = reapsOf c earlier := by rw [hlater, List.nil_append]
  have hexits : exitsOf c trace = exitsOf c later ++ exitsOf c earlier := by
    rw [hsplit, exitsOf, List.filterMap_append]
    rfl
  have hlen := congrArg List.length hacc
  rw [hreaps, hexits, List.length_append] at hlen
  omega

end

end Ledger

/-- What has happened since the slot was given to its present process. -/
def lifetime (p : Fin NPROC) : List Event → List Event :=
  List.takeWhile fun
    | .alloc q _ => q ≠ p
    | _ => true

def Blamed (p : Fin NPROC) (pid : Int32) (trace : List Event) : Prop :=
  .kkill pid ∈ lifetime p trace ∨ .setkilled p ∈ lifetime p trace

theorem lifetime_cons (he : ∀ n, e ≠ .alloc p n) :
    lifetime p (e :: trace) = e :: lifetime p trace := by
  refine List.takeWhile_cons_of_pos ?_
  cases e with
  | alloc q n => exact decide_eq_true fun h => he n (by rw [h])
  | _ => rfl

theorem Blamed.cons (h : Blamed p pid trace) (he : ∀ n, e ≠ .alloc p n) :
    Blamed p pid (e :: trace) := by
  rw [Blamed, lifetime_cons he]
  exact h.imp (List.mem_cons_of_mem _) (List.mem_cons_of_mem _)

/-- Every mark is somebody's doing. -/
structure Provenance (proc : Fin NPROC → Task) (trace : List Event) : Prop where
  unused : ∀ p, (proc p).state = .UNUSED → (proc p).pid = 0 ∧ (proc p).killed = false
  killed : ∀ p, (proc p).killed = true → Blamed p (proc p).pid trace

/-! The pids, which `allocpid` gives out one after the other. -/

def allocs (trace : List Event) : ℕ :=
  trace.countP fun
    | .alloc .. => true
    | _ => false

/-- The events in which a pid is given out or returned. -/
def Event.numbers : Event → Bool
  | .alloc .. | .forked .. => true
  | _ => false

/-- The pids lie between 1 and `last`, and no two processes have the same. -/
structure Numbered (last : ℕ) (d : Tasks) : Prop where
  bound : ∀ p, (d.proc p).pid.toInt ≤ last
  positive : ∀ p, (d.proc p).state ≠ .UNUSED → 0 < (d.proc p).pid.toInt
  distinct : ∀ p q, 0 < (d.proc p).pid.toInt → (d.proc p).pid = (d.proc q).pid → p = q
  returned : ∀ p n, .forked p n ∈ d.trace → 0 < n.toInt

/-- `base` pids are older than the trace. While they fit an `int`, the processes are numbered. -/
structure Pids (base : ℕ) (d : Tasks) : Prop where
  next : d.nextpid = Int32.ofNat (base+allocs d.trace+1)
  numbered : base+allocs d.trace < 2^31 → Numbered (base+allocs d.trace) d

namespace Pids
variable {base : ℕ} {d d' : Tasks}

theorem keep (h : Pids base d) (hn : d'.nextpid = d.nextpid) (ht : d'.trace = d.trace)
    (hp : ∀ p, ((d'.proc p).pid = (d.proc p).pid ∧
        ((d'.proc p).state ≠ .UNUSED → (d.proc p).state ≠ .UNUSED)) ∨
      (d'.proc p).pid = 0 ∧ (d'.proc p).state = .UNUSED) : Pids base d' := by
  refine ⟨by rw [hn, ht, h.next], fun hb => ?_⟩
  rw [ht] at hb ⊢
  have hd := h.numbered hb
  -- A pid that is positive is an old one.
  have hold (p : Fin NPROC) (hpos : 0 < (d'.proc p).pid.toInt) :
      (d'.proc p).pid = (d.proc p).pid := by
    rcases hp p with hp | hp
    · exact hp.1
    · rw [hp.1] at hpos
      exact absurd hpos (by decide)
  refine ⟨fun p => ?_, fun p hs => ?_, fun p q hpos hpq => ?_, fun p n hn => ?_⟩
  · rcases hp p with hp | hp
    · rw [hp.1]
      exact hd.bound p
    · rw [hp.1]
      exact Int.natCast_nonneg _
  · rcases hp p with hp | hp
    · rw [hp.1]
      exact hd.positive p (hp.2 hs)
    · exact absurd hp.2 hs
  · have hp := hold p hpos
    have hq := hold q (hpq ▸ hpos)
    rw [hp] at hpos hpq
    exact hd.distinct p q hpos (hpq.trans hq)
  · exact hd.returned p n (ht ▸ hn)

theorem slot (h : Pids base d) (hn : d'.nextpid = d.nextpid) (ht : d'.trace = d.trace)
    (hothers : ∀ j, j ≠ q → d'.proc j = d.proc j)
    (hq : ((d'.proc q).pid = (d.proc q).pid ∧
        ((d'.proc q).state ≠ .UNUSED → (d.proc q).state ≠ .UNUSED)) ∨
      (d'.proc q).pid = 0 ∧ (d'.proc q).state = .UNUSED) : Pids base d' := by
  refine h.keep hn ht fun p => ?_
  by_cases hpq : p = q
  · exact hpq ▸ hq
  · rw [hothers p hpq]
    exact .inl ⟨rfl, id⟩

theorem event (h : Pids base d) (he : e.numbers = false) : Pids base (d.record e) := by
  have hallocs : allocs (d.record e).trace = allocs d.trace := by
    cases e with
    | alloc p n => cases he
    | _ => rfl
  refine ⟨by rw [hallocs]; exact h.next, fun hb => ?_⟩
  rw [hallocs] at hb ⊢
  have hd := h.numbered hb
  refine ⟨hd.bound, hd.positive, hd.distinct, fun p n hn => ?_⟩
  rcases List.mem_cons.mp hn with hn | hn
  · rw [← hn] at he
    cases he
  · exact hd.returned p n hn

theorem fork (h : Pids base d) (hq : (d.proc q).state ≠ .UNUSED) (p : Fin NPROC) :
    Pids base (d.record (.forked p (d.proc q).pid)) := by
  refine ⟨h.next, fun hb => ?_⟩
  have hd := h.numbered hb
  refine ⟨hd.bound, hd.positive, hd.distinct, fun p n hn => ?_⟩
  rcases List.mem_cons.mp hn with hn | hn
  · obtain ⟨-, rfl⟩ := Event.forked.inj hn
    exact hd.positive q hq
  · exact hd.returned p n hn

theorem alloc (h : Pids base d) (q : Fin NPROC) : Pids base (d.allocproc q) := by
  have hallocs : allocs (d.allocproc q).trace = allocs d.trace+1 :=
    List.countP_cons_of_pos rfl
  refine ⟨?_, fun hb => ?_⟩
  · rw [hallocs, ← Nat.add_assoc, Int32.ofNat_add, ← h.next]
    rfl
  rw [hallocs, ← Nat.add_assoc] at hb ⊢
  have hd := h.numbered (by omega)
  have hnew : d.nextpid.toInt = (base+allocs d.trace+1 : ℕ) := by
    rw [h.next]
    exact Int32.toInt_ofNat_of_lt hb
  have hself : ((d.allocproc q).proc q).pid = d.nextpid := by
    rw [Tasks.allocproc, Tasks.setProc_self]
  have hothers (j : Fin NPROC) (hj : j ≠ q) : (d.allocproc q).proc j = d.proc j :=
    Function.update_of_ne hj ..
  have hfresh (p : Fin NPROC) : (d.proc p).pid ≠ d.nextpid := by
    intro hp
    have hbound := hd.bound p
    rw [hp] at hbound
    omega
  refine ⟨fun p => ?_, fun p hs => ?_, fun p r hpos hpr => ?_, fun p n hn => ?_⟩
  · by_cases hpq : p = q
    · rw [hpq, hself, hnew]
    · rw [hothers p hpq]
      exact (hd.bound p).trans (by omega)
  · by_cases hpq : p = q
    · rw [hpq, hself]
      omega
    · rw [hothers p hpq] at hs ⊢
      exact hd.positive p hs
  · by_cases hpq : p = q
    · by_cases hrq : r = q
      · rw [hpq, hrq]
      · rw [hpq, hself, hothers r hrq] at hpr
        exact absurd hpr.symm (hfresh r)
    · rw [hothers p hpq] at hpos hpr
      by_cases hrq : r = q
      · rw [hrq, hself] at hpr
        exact absurd hpr (hfresh p)
      · rw [hothers r hrq] at hpr
        exact hd.distinct p r hpos hpr
  · rcases List.mem_cons.mp hn with hn | hn
    · cases hn
    · exact hd.returned p n hn

end Pids

namespace Provenance

section
variable (h : Provenance proc trace)
include h

theorem congr (hp : ∀ p, (proc' p).pid = (proc p).pid ∧
      ((proc' p).killed = true → (proc p).killed = true) ∧
      ((proc' p).state = .UNUSED → (proc p).state = .UNUSED)) : Provenance proc' trace := by
  refine ⟨fun p hs => ?_, fun p hk => ?_⟩
  · obtain ⟨hpid, hkill, hstate⟩ := hp p
    obtain ⟨h0, hk⟩ := h.unused p (hstate hs)
    rw [hpid]
    exact ⟨h0, Bool.eq_false_iff.mpr fun hk' => by rw [hkill hk'] at hk; cases hk⟩
  · rw [(hp p).1]
    exact h.killed p ((hp p).2.1 hk)

theorem event (he : ∀ p n, e ≠ .alloc p n) : Provenance proc (e :: trace) :=
  ⟨h.unused, fun p hk => (h.killed p hk).cons (he p)⟩

theorem alloc {n : Int32} (hothers : ∀ j, j ≠ q → proc' j = proc j)
    (hs : (proc q).state = .UNUSED) (hs' : (proc' q).state ≠ .UNUSED)
    (hk : (proc' q).killed = (proc q).killed) : Provenance proc' (.alloc q n :: trace) := by
  refine ⟨fun p hp => ?_, fun p hp => ?_⟩
  · by_cases hpq : p = q
    · subst hpq
      exact absurd hp hs'
    · rw [hothers p hpq] at hp ⊢
      exact h.unused p hp
  · by_cases hpq : p = q
    · -- The slot comes without a mark.
      subst hpq
      rw [hk, (h.unused p hs).2] at hp
      cases hp
    · rw [hothers p hpq] at hp ⊢
      refine (h.killed p hp).cons fun n he => ?_
      exact hpq (Event.alloc.inj he).1.symm

theorem slot (hothers : ∀ j, j ≠ q → proc' j = proc j)
    (hu : (proc' q).state = .UNUSED → (proc' q).pid = 0 ∧ (proc' q).killed = false)
    (hk : (proc' q).killed = true → Blamed q (proc' q).pid trace) : Provenance proc' trace := by
  refine ⟨fun p hp => ?_, fun p hp => ?_⟩ <;> by_cases hpq : p = q
  · subst hpq
    exact hu hp
  · rw [hothers p hpq] at hp ⊢
    exact h.unused p hp
  · subst hpq
    exact hk hp
  · rw [hothers p hpq] at hp ⊢
    exact h.killed p hp

end

/-- One slot of `kkill`, with an argument that is not the pid of the unused slots. -/
theorem kill {d : Tasks} (h : Provenance d.proc d.trace) (q : Fin NPROC) (hpid : pid ≠ 0) :
    Provenance (d.kill q pid).2.proc (d.kill q pid).2.trace := by
  have hk : Provenance d.proc (.kkill pid :: d.trace) := h.event (by simp)
  rw [Tasks.kill]
  split_ifs with hq
  · have hused : (d.proc q).state ≠ .UNUSED := fun hs => hpid (hq.symm.trans (h.unused q hs).1)
    refine hk.slot (fun j hj => Tasks.hit_of_ne _ hj) ?_ fun _ => ?_ <;>
      rw [Tasks.hit, Tasks.setProc_self]
    · change (if (d.proc q).state = .SLEEPING then .RUNNABLE else (d.proc q).state) = _ → _
      split
      · simp
      · exact fun hs => absurd hs hused
    · change Blamed q (d.proc q).pid (.kkill pid :: d.trace)
      rw [hq, Blamed, lifetime_cons (by simp)]
      exact .inl List.mem_cons_self
  · exact hk

end Provenance
end Xv6.Threads
