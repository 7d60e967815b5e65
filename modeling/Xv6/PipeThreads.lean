import Xv6.CallAnswers
import Xv6.PipeRing
import Xv6.KillWait

/-! Processes that read and write one pipe. What the outline says about wakeups holds only in runs
in which no process is killed while it holds `pi->lock`, so that this part is under a hypothesis
`strict`. -/
namespace Xv6.Threads
open Code Function

/-- What a process that holds `pi->lock` knows. -/
inductive PipeMode where
  | idle
  /-- In `pipewrite`: the read end is open; the process is not killed; there is room; there is
  none. -/
  | opened | checked | room | full

namespace PipeMode

def knows (strict : Prop) (d : Tasks) (t : Fin NPROC) : PipeMode → Prop
  | .idle => True
  | .opened => d.pipe.readopen = true
  | .checked => d.pipe.readopen = true ∧ (strict → (d.proc t).killed = false)
  | .room => d.pipe.readopen = true ∧ (strict → (d.proc t).killed = false) ∧ d.pipe.full = false
  | .full => d.pipe.readopen = true ∧ d.pipe.full = true

end PipeMode

structure PipeRest (strict : Prop) (d : Tasks) (g : Modes PipeMode) : Prop where
  fifo : ∃ pending, Pending d.pipe (putBytes d.trace) (takenBytes d.trace) pending
  holds : ∀ t, (g t).2.2 ≠ .idle → .pipe ∈ (g t).1
  knows : ∀ t, (g t).2.2.knows strict d t

def pipeMay (strict : Prop) : Chan → Fin NPROC → Tasks → Prop
  | .nread, _, d => strict → d.pipe.empty = true ∧ d.pipe.writeopen = true
  | .nwrite, _, d => strict → d.pipe.full = true ∧ d.pipe.readopen = true
  | _, _, _ => True

def pipeMonitor (strict : Prop) : Monitor PipeMode where
  ok t d lock d' := strict → KillsOutside [.pipe] t d lock d'
  may := pipeMay strict
  lax _ := True
  rest := PipeRest strict

variable {strict : Prop} {d d' : Tasks} {g : Modes PipeMode} {t : Fin NPROC}
  {H : Set LockId} {s : SleepMode} {x : PipeMode}

theorem pipeMay_of_pipe {c : Chan} {j : Fin NPROC} (hw : pipeMay strict c j d)
    (h : d'.pipe = d.pipe) : pipeMay strict c j d' := by
  cases c <;> simp only [pipeMay, h] at hw ⊢ <;> exact hw

theorem PipeMode.knows_of_pipe (hp : d'.pipe = d.pipe)
    (hk : strict → (d.proc t).killed = false → (d'.proc t).killed = false)
    (h : x.knows strict d t) : x.knows strict d' t := by
  cases x <;> simp only [PipeMode.knows, hp] at h ⊢
  case checked => exact ⟨h.1, fun hs => hk hs (h.2 hs)⟩
  case room => exact ⟨h.1, fun hs => hk hs (h.2.1 hs), h.2.2⟩
  all_goals exact h

namespace PipeRest

theorem enter (h : PipeRest strict d g) (hH : x ≠ .idle → .pipe ∈ H) (hk : x.knows strict d t) :
    PipeRest strict d (update g t (H, (s, x))) := by
  refine ⟨h.fifo, fun u hu => ?_, fun u => ?_⟩
  · by_cases hut : u = t
    · subst hut
      rw [update_self] at hu ⊢
      exact hH hu
    · rw [update_of_ne hut] at hu ⊢
      exact h.holds u hu
  · by_cases hut : u = t
    · subst hut
      rw [update_self]
      exact hk
    · rw [update_of_ne hut]
      exact h.knows u

theorem frame (h : PipeRest strict d g) (hp : d'.pipe = d.pipe)
    (hput : putBytes d'.trace = putBytes d.trace)
    (htaken : takenBytes d'.trace = takenBytes d.trace)
    (hk : strict → ∀ u, (g u).2.2 ≠ .idle → (d.proc u).killed = false →
      (d'.proc u).killed = false) :
    PipeRest strict d' g := by
  refine ⟨?_, h.holds, fun u => ?_⟩
  · rw [hp, hput, htaken]
    exact h.fifo
  · by_cases hu : (g u).2.2 = .idle
    · rw [hu]
      trivial
    · exact PipeMode.knows_of_pipe hp (fun hs => hk hs u hu) (h.knows u)

theorem record (h : PipeRest strict d g) (e : Event)
    (hput : putBytes (e :: d.trace) = putBytes d.trace)
    (htaken : takenBytes (e :: d.trace) = takenBytes d.trace) : PipeRest strict (d.record e) g :=
  h.frame rfl hput htaken fun _ _ _ hk => hk

/-- A change of the pipe by the process that holds its lock: nobody else knows anything. -/
theorem change {lock : LockId → Option (Fin NPROC)} (h : PipeRest strict d g) (hl : Held lock g)
    (hg : .pipe ∈ (g t).1)
    (hfifo : ∃ pending, Pending d'.pipe (putBytes d'.trace) (takenBytes d'.trace) pending)
    (hH : .pipe ∈ H) (hk : x.knows strict d' t) :
    PipeRest strict d' (update g t (H, (s, x))) := by
  refine ⟨hfifo, fun u hu => ?_, fun u => ?_⟩
  · by_cases hut : u = t
    · subst hut
      rw [update_self]
      exact hH
    · rw [update_of_ne hut] at hu ⊢
      exact h.holds u hu
  · by_cases hut : u = t
    · subst hut
      rw [update_self]
      exact hk
    · rw [update_of_ne hut]
      have hidle : (g u).2.2 = .idle := by
        by_contra hne
        exact hut (hl.unique (h.holds u hne) hg)
      rw [hidle]
      trivial

end PipeRest

theorem pipeMonitor_steady : (pipeMonitor strict).Steady where
  resched := by
    rintro c j q d _ hw ⟨state, chan, -, -, rfl⟩
    exact pipeMay_of_pipe hw rfl
  woken _ hw := pipeMay_of_pipe hw rfl
  tick _ hw := pipeMay_of_pipe hw rfl

theorem pipeMonitor_quiet : (pipeMonitor strict).Quiet x where
  relock := by
    intro d g t H s hr hx hH
    refine hr.enter (fun hne => ?_) (hx ▸ hr.knows t)
    exact (hH .pipe (fun q => (by simp)) (by simp)).mpr (hr.holds t (hx ▸ hne))
  resched := by
    rintro d _ g t q hr - - ⟨state, chan, -, -, rfl⟩
    refine PipeRest.frame hr rfl rfl rfl fun _ u _ hk => ?_
    by_cases huq : u = q
    · subst huq
      rwa [Tasks.setProc_self]
    · rwa [Tasks.setProc_of_ne _ huq]
  woken hr _ := PipeRest.frame hr rfl rfl rfl fun _ _ _ hk => hk
  tick hr _ := PipeRest.frame hr rfl rfl rfl fun _ _ _ hk => hk

theorem pipeMonitor_detached : (pipeMonitor strict).Detached where
  memory hw := pipeMay_of_pipe hw rfl
  boundary _ hw := pipeMay_of_pipe hw rfl
  restMemory hr := PipeRest.frame hr rfl rfl rfl fun _ _ _ hk => hk
  restBoundary {d g e} he hr := by
    refine PipeRest.record hr e ?_ ?_ <;> cases e <;> first | rfl | cases he

theorem pipeMonitor_idle : (pipeMonitor strict).Idle .idle where
  toQuiet := pipeMonitor_quiet
  anyLocks hr _ := hr.enter (absurd rfl) trivial

theorem pipeMonitor_kill (pid : Int32) : (pipeMonitor strict).outline.Keeps t (∅, (.awake, .idle))
    (kkill t pid) := by
  refine Monitor.kkill_safe pipeMonitor_steady pipeMonitor_quiet fun d lock g q hm hl hr _ hok => ?_
  have hpipe : (d.kill q pid).2.pipe = d.pipe := by
    rw [Tasks.kill]
    split <;> rfl
  refine ⟨hm.kill fun c j hw _ => pipeMay_of_pipe hw hpipe, PipeRest.frame hr hpipe ?_ ?_ ?_⟩
  · rw [Tasks.kill]
    split <;> rfl
  · rw [Tasks.kill]
    split <;> rfl
  · -- A process that knows something holds the lock, and is not killed then.
    intro hs u hu hk
    by_contra hk'
    exact hok hs u hk (Bool.not_eq_false _ ▸ hk') .pipe (by simp) ((hl .pipe u).mpr (hr.holds u hu))

theorem pipe_record {held : Fin NPROC → Set LockId} {mode : Fin NPROC → SleepMode}
    (hm : Monitored (pipeMay strict) (fun _ => True) d held mode) (e : Event) :
    Monitored (pipeMay strict) (fun _ => True) (d.record e) held mode :=
  hm.keep (fun _ => ⟨rfl, fun _ => rfl⟩) fun _ _ hmay => pipeMay_of_pipe hmay rfl

/-- The locks of a process that holds `pi->lock` only. -/
abbrev pipeHeld : Set LockId := insert .pipe ∅

variable {Q : Unit → Set LockId × (SleepMode × PipeMode) → Prop}

theorem pipe_lock_safe (hQ : Q () (pipeHeld, (.awake, .idle))) :
    (pipeMonitor strict).outline.Safe t (∅, (.awake, .idle)) (lock .pipe : KCode Unit) Q :=
  pipeMonitor_idle.lock fun _ => hQ

theorem pipe_unlock_safe (hs : s.settled) (hQ : Q () (∅, (.awake, .idle))) :
    (pipeMonitor strict).outline.Safe t (pipeHeld, (s, x)) (unlock .pipe : KCode Unit) Q :=
  Monitor.unlock_settled .idle hs (Set.notMem_empty _)
    (fun _ _ hr _ => PipeRest.enter hr (absurd rfl) trivial) hQ

/-- An act of the holder of `pi->lock` that changes the pipe, and when to sleep on one channel
only, which it is going to wake. -/
theorem Monitored.spoilPipe {c : Chan} {held : Fin NPROC → Set LockId}
    {mode : Fin NPROC → SleepMode} (hm : Monitored (pipeMay strict) (fun _ => True) d held mode)
    (hex : Exclusive held) (hs : (mode t).wakes c 0) (hlk : c.lock ∈ held t)
    (hproc : d'.proc = d.proc)
    (hW : ∀ c' j, c' ≠ c → pipeMay strict c' j d → pipeMay strict c' j d') :
    Monitored (pipeMay strict) (fun _ => True) d' held (update mode t (.owes c 0)) :=
  (hm.beginWake hex hs hlk).spoil hex (update_self ..) (.inl trivial)
    (fun j => by rw [hproc]; exact ⟨rfl, rfl⟩) hW

/-- Closing one end of the pipe, and waking those who sleep at the other. -/
theorem close_safe (c : Chan) (hc : c.lock = .pipe) (f : PipeBuf → PipeBuf)
    (hf : ∀ b, (f b).data = b.data ∧ (f b).nread = b.nread ∧ (f b).nwrite = b.nwrite)
    (hW : ∀ c' j d, c' ≠ c → pipeMay strict c' j d → pipeMay strict c' j { d with pipe := f d.pipe }) :
    (pipeMonitor strict).outline.Leads t (pipeHeld, (.awake, .idle)) (do
      write fun d => { d with pipe := f d.pipe }
      wakeup t c
      unlock .pipe : KCode Unit) (∅, (.awake, .idle)) := by
  have hmem : LockId.pipe ∈ pipeHeld := Set.mem_insert ..
  refine .bind (Monitor.write_safe fun d lock g hm hl hr hg _ => ⟨.owes c 0, .idle, ?_, ?_, ?_⟩)
  · refine Monitored.spoilPipe hm (exclusive_of_held hl) (.inr ⟨rfl, ?_⟩) ?_ rfl fun c' j => hW c' j d
    · rw [sleepOf, hg]
      trivial
    · rw [heldOf, hg, hc]
      exact hmem
  · obtain ⟨pending, hp⟩ := hr.fifo
    obtain ⟨hdata, hnread, hnwrite⟩ := hf d.pipe
    refine PipeRest.change hr hl (by rw [hg]; exact hmem) ⟨pending, hp.order, ?_, hp.fits, ?_⟩
      hmem trivial
    · rw [hnread, hnwrite]
      exact hp.count
    · rw [hdata, hnread]
      exact hp.place
  · refine .andThen (Monitor.wakeup_safe c pipeMonitor_steady pipeMonitor_quiet (.inl rfl)
      (by rw [hc]; exact hmem)) fun _ => ?_
    exact pipe_unlock_safe le_rfl rfl

theorem pipeclose_safe (writable : Bool) : (pipeMonitor strict).outline.Keeps t
    (∅, (.awake, .idle)) (pipeclose t writable) := by
  refine .bind (pipe_lock_safe ?_)
  cases writable with
  | true =>
    refine close_safe .nread rfl (fun b => { b with writeopen := false }) (fun b => ⟨rfl, rfl, rfl⟩)
      fun c j d hc hw => ?_
    cases c <;> first | exact hw | exact absurd rfl hc
  | false =>
    refine close_safe .nwrite rfl (fun b => { b with readopen := false }) (fun b => ⟨rfl, rfl, rfl⟩)
      fun c j d hc hw => ?_
    cases c <;> first | exact hw | exact absurd rfl hc

/-- The mode of a process that may have put bytes in which it has still to announce. -/
def Paying (strict : Prop) (s : SleepMode) : Prop := s = .awake ∨ strict ∧ s = .owes .nread 0

theorem Paying.wakes (h : Paying strict s) : s.wakes .nread 0 := by
  rcases h with rfl | ⟨-, rfl⟩
  · exact .inr ⟨rfl, trivial⟩
  · exact .inl rfl

/-- What `pipewrite` is up to before each round of its loop: nothing has been put in since the
last `wakeup`, or the process is known not to be killed. -/
def Writing (strict : Prop) (s : SleepMode) (x : PipeMode) : Prop :=
  s = .awake ∧ x = .idle ∨ Paying strict s ∧ x = .checked

theorem stop_safe (hw : Writing strict s x) {k : Bool → KCode (ℕ ⊕ Option ℕ)}
    {Q : ℕ ⊕ Option ℕ → Set LockId × (SleepMode × PipeMode) → Prop}
    (htrue : ∀ s x, s.settled → (pipeMonitor strict).outline.Safe t (pipeHeld, (s, x)) (k true) Q)
    (hfalse : Paying strict s →
      (pipeMonitor strict).outline.Safe t (pipeHeld, (s, .checked)) (k false) Q) :
    (pipeMonitor strict).outline.Safe t (pipeHeld, (s, x)) (do
      let readopen ← read fun d => d.pipe.readopen
      if readopen then killed t >>= k else k true) Q := by
  -- Once `killed` has answered 0, the process is known not to be killed.
  have hchecked (d : Tasks) (g : Modes PipeMode) (s : SleepMode) (hr : PipeRest strict d g)
      (hopen : d.pipe.readopen = true) (hk : (d.proc t).killed = false) :
      PipeRest strict (d.record (.notKilled t))
        (update g t (insert (.proc t) pipeHeld, (s, .checked))) :=
    (hr.record (.notKilled t) rfl rfl).enter
      (fun _ => .inr (Set.mem_insert ..)) ⟨hopen, fun _ => hk⟩
  refine .bind (Monitor.read_safe fun d lock g hm hl hr hg => ?_)
  rcases hw with ⟨rfl, rfl⟩ | ⟨hp, rfl⟩
  · cases hopen : d.pipe.readopen with
    | false =>
      exact ⟨.idle, PipeRest.enter hr (absurd rfl) trivial, htrue .awake .idle trivial⟩
    | true =>
      refine ⟨.opened, PipeRest.enter hr (fun _ => Set.mem_insert ..) hopen,
        .bind (Monitor.killed_safe pipeMonitor_quiet (by simp) (fun c j d hw => pipeMay_of_pipe hw rfl)
          (fun d g _ _ _ => htrue .awake .opened trivial) fun d g hr hg hk => ?_)⟩
      have hknows := hr.knows t
      rw [hg] at hknows
      exact ⟨.checked, pipeMonitor_quiet, hchecked d g .awake hr hknows hk, hfalse (.inl rfl)⟩
  · have hnc : ∀ c, s ≠ .commits c := by
      rcases hp with rfl | ⟨-, rfl⟩ <;> simp
    have hknows := hr.knows t
    rw [hg] at hknows
    rw [hknows.1]
    refine ⟨.checked, ?_, .bind (Monitor.killed_safe pipeMonitor_quiet hnc
      (fun c j d hw => pipeMay_of_pipe hw rfl) (fun d g hr hg hk => ?_) fun d g hr hg hk => ?_)⟩
    · rwa [← hg, update_eq_self]
    · -- This is where a kill in the middle of a transfer would show.
      have hknows := hr.knows t
      rw [hg] at hknows
      rcases hp with rfl | ⟨hstrict, -⟩
      · exact htrue _ _ trivial
      · rw [hknows.2 hstrict] at hk
        cases hk
    · have hknows := hr.knows t
      rw [hg] at hknows
      exact ⟨.checked, pipeMonitor_quiet, hchecked d g _ hr hknows.1 hk, hfalse hp⟩

theorem put_safe (hp : Paying strict s) (ch : UInt8)
    (hQ : ∀ s, Paying strict s → Q () (pipeHeld, (s, .checked))) :
    (pipeMonitor strict).outline.Safe t (pipeHeld, (s, .room))
      (write fun d => { d.record (.put t ch) with pipe := d.pipe.put ch } : KCode Unit) Q := by
  have hmem : LockId.pipe ∈ pipeHeld := Set.mem_insert ..
  refine Monitor.write_safe fun d lock g hm hl hr hg _ => ?_
  have hknows := hr.knows t
  rw [hg] at hknows
  have hheld : LockId.pipe ∈ (g t).1 := by rw [hg]; exact hmem
  have hs := sleepOf_eq hg
  have hrest (s' : SleepMode) : PipeRest strict { d.record (.put t ch) with pipe := d.pipe.put ch }
      (update g t (pipeHeld, (s', .checked))) := by
    obtain ⟨pending, hp⟩ := hr.fifo
    exact PipeRest.change hr hl hheld ⟨_, hp.push hknows.2.2 ch⟩ hmem
      ⟨hknows.1, hknows.2.1⟩
  by_cases hstrict : strict
  · refine ⟨.owes .nread 0, .checked, ?_, hrest _, hQ _ (.inr ⟨hstrict, rfl⟩)⟩
    refine Monitored.spoilPipe hm (exclusive_of_held hl) (hs ▸ hp.wakes) hheld rfl
      fun c j hc hmay => ?_
    -- Nobody may sleep until there is room, as there is room.
    cases c with
    | nread => exact absurd rfl hc
    | nwrite =>
      intro hs
      have hfull := (hmay hs).1
      rw [hknows.2.2] at hfull
      cases hfull
    | _ => trivial
  · refine ⟨s, .checked, .stay (hm.keep (fun j => ⟨rfl, fun _ => rfl⟩) fun c j _ => ?_) hg,
      hrest _, hQ _ hp⟩
    cases c <;> first | exact trivial | exact fun hs => absurd hs hstrict

theorem pipewrite_safe (addr : UInt64) (n : Int32) :
    (pipeMonitor strict).outline.Keeps t (∅, (.awake, .idle)) (pipewrite t addr n) := by
  have hmem : LockId.pipe ∈ pipeHeld := Set.mem_insert ..
  refine .bind (pipe_lock_safe (.bind (Outline.Safe.mono (Outline.Safe.loop
    (fun _ a => ∃ s x, a = (pipeHeld, (s, x)) ∧ Writing strict s x)
    (Q := fun r a => ∃ s x, a = (pipeHeld, (s, x)) ∧ r.elim s.settled fun _ => Paying strict s)
    (fun i a ha => ?_) ⟨.awake, .idle, rfl, .inl ⟨rfl, rfl⟩⟩) fun r a ha => ?_)))
  · obtain ⟨s, x, rfl, hw⟩ := ha
    split_ifs with hin
    · refine stop_safe hw (fun s x hs => .ret ⟨s, x, rfl, hs⟩) fun hp => ?_
      refine .bind (Monitor.access_safe fun _ d lock g b d' hm hl hr hg hf _ => ?_)
      cases hf
      have hknows := hr.knows t
      rw [hg] at hknows
      have hm' := (pipe_record hm (.tested t .nwrite)).stay hg
      have hr' : PipeRest strict (d.record (.tested t .nwrite)) g :=
        hr.record _ rfl rfl
      cases hfull : d.pipe.full with
      | true =>
        refine ⟨s, .full, hm', hr'.enter (fun _ => hmem) ⟨hknows.1, hfull⟩, ?_⟩
        refine .andThen (Monitor.wakeup_safe .nread pipeMonitor_steady pipeMonitor_quiet hp.wakes
          hmem) fun _ => .bind ?_
        -- Still full, as the lock has been held throughout.
        refine (Monitor.sleep_safe .nwrite pipeMonitor_steady pipeMonitor_idle
          (fun d g hm hex hr hg => ?_) fun d g H' hr hg => ?_).mono fun _ a ha =>
            .ret ⟨.awake, .idle, ha, .inl ⟨rfl, rfl⟩⟩
        · have hknows := hr.knows t
          rw [hg] at hknows
          refine hm.getReady hex ?_ ?_ fun _ => ⟨hknows.2, hknows.1⟩
          · rw [sleepOf, hg]
            exact le_rfl
          · rw [heldOf, hg]
            exact hmem
        · exact PipeRest.enter hr (absurd rfl) trivial
      | false =>
        refine ⟨s, .room, hm', hr'.enter (fun _ => hmem) ⟨hknows.1, hknows.2, hfull⟩, ?_⟩
        refine .bind (Monitor.copyin_safe fun ch => ?_)
        cases ch with
        | none => exact .ret ⟨s, .room, rfl, hp⟩
        | some ch =>
          exact .bind (put_safe hp ch fun s hp => .ret ⟨s, .checked, rfl, .inr ⟨hp, rfl⟩⟩)
    · refine .ret ⟨s, x, rfl, ?_⟩
      exact hw.elim (fun h => .inl h.1) fun h => h.1
  · obtain ⟨s, x, rfl, hs⟩ := ha
    cases r with
    | none => exact .bind (pipe_unlock_safe hs (.ret rfl))
    | some i =>
      refine .andThen (Monitor.wakeup_safe .nread pipeMonitor_steady pipeMonitor_quiet hs.wakes
        hmem) fun _ => ?_
      exact .bind (pipe_unlock_safe le_rfl (.ret rfl))

def Taking (s : SleepMode) : Prop := s = .awake ∨ s = .owes .nwrite 0

theorem Taking.wakes (h : Taking s) : s.wakes .nwrite 0 := by
  rcases h with rfl | rfl
  · exact .inr ⟨rfl, trivial⟩
  · exact .inl rfl

theorem pipereadCopy_safe (addr : UInt64) (n : Int32) : (pipeMonitor strict).outline.Safe t
    (pipeHeld, (.awake, .idle)) (pipereadCopy t addr n) fun _ a =>
      ∃ s, a = (pipeHeld, (s, .idle)) ∧ Taking s := by
  have hmem : LockId.pipe ∈ pipeHeld := Set.mem_insert ..
  refine Outline.Safe.loop (fun _ a => ∃ s, a = (pipeHeld, (s, .idle)) ∧ Taking s)
    (fun i a ha => ?_) ⟨.awake, rfl, .inl rfl⟩
  obtain ⟨s, rfl, ht⟩ := ha
  split_ifs with hin
  · refine .bind (Monitor.access_safe fun _ d lock g b d' hm hl hr hg hf _ => ?_)
    have hs := sleepOf_eq hg
    have hheld : LockId.pipe ∈ (g t).1 := by rw [hg]; exact hmem
    cases hempty : d.pipe.empty with
    | true =>
      rw [hempty] at hf
      cases hf
      refine ⟨s, .idle, hm.stay hg, ?_, .ret ⟨s, rfl, ht⟩⟩
      rwa [← hg, update_eq_self]
    | false =>
      rw [hempty] at hf
      cases hf
      refine ⟨.owes .nwrite 0, .idle, ?_, ?_, .bind (Monitor.copyout_safe pipeMonitor_detached
        fun ok => ?_)⟩
      · refine Monitored.spoilPipe hm (exclusive_of_held hl) (hs ▸ ht.wakes) hheld rfl
          fun c j hc hmay => ?_
        -- Nobody may sleep until there is a byte, as there is one.
        cases c with
        | nwrite => exact absurd rfl hc
        | nread =>
          intro hs
          have hemp := (hmay hs).1
          rw [hempty] at hemp
          cases hemp
        | _ => trivial
      · obtain ⟨pending, hp⟩ := hr.fifo
        obtain ⟨rest, -, hpop⟩ := hp.pop hempty
        exact PipeRest.change hr hl hheld ⟨rest, hpop⟩ hmem trivial
      · cases ok with
        | true => exact .ret ⟨_, rfl, .inr rfl⟩
        | false => exact .ret ⟨_, rfl, .inr rfl⟩
  · exact .ret ⟨s, rfl, ht⟩

theorem piperead_safe (addr : UInt64) (n : Int32) :
    (pipeMonitor strict).outline.Keeps t (∅, (.awake, .idle)) (piperead t addr n) := by
  have hmem : LockId.pipe ∈ pipeHeld := Set.mem_insert ..
  refine .bind (pipe_lock_safe (.bind (Outline.Safe.mono (Outline.Safe.loop
    (fun _ a => a = (pipeHeld, (.awake, .idle)))
    (Q := fun r a => if r then a = (pipeHeld, (.awake, .idle)) else
      ∃ s x, a = (pipeHeld, (s, x)) ∧ s.settled)
    (fun _ a ha => ?_) rfl) fun r a ha => ?_)))
  · subst ha
    refine .bind (Monitor.access_safe fun _ d lock g b d' hm hl hr hg hf _ => ?_)
    cases hf
    have hs := sleepOf_eq hg
    have hm' := pipe_record hm (.tested t .nread)
    have hr' : PipeRest strict (d.record (.tested t .nread)) g := hr.record _ rfl rfl
    cases hwait : (d.pipe.empty && d.pipe.writeopen) with
    | true =>
      refine ⟨.ready .nread, .idle, hm'.getReady (exclusive_of_held hl) (by rw [hs]; trivial) ?_
        fun _ => (Bool.and_eq_true _ _).mp hwait, hr'.enter (absurd rfl) trivial, ?_⟩
      · rw [heldOf, hg]
        exact hmem
      refine .bind (Monitor.killed_safe pipeMonitor_quiet (by simp)
        (fun c j d hw => pipeMay_of_pipe hw rfl)
        (fun d g _ _ _ => .ret ⟨_, _, rfl, trivial⟩) fun d g hr hg hk =>
          ⟨.idle, pipeMonitor_quiet, ?_, ?_⟩)
      · exact (PipeRest.record hr (.notKilled t) rfl rfl).enter (absurd rfl) trivial
      · refine .andThen (Monitor.sleep_safe .nread pipeMonitor_steady pipeMonitor_idle
          (fun d g hm _ _ hg => hm.stay hg) fun d g H' hr hg => ?_) fun _ => .ret rfl
        exact PipeRest.enter hr (absurd rfl) trivial
    | false => exact ⟨.awake, .idle, hm'.stay hg, hr'.enter (absurd rfl) trivial, .ret rfl⟩
  · cases r with
    | false =>
      obtain ⟨s, x, rfl, hs⟩ := ha
      exact .bind (pipe_unlock_safe hs (.ret rfl))
    | true =>
      obtain rfl : a = (pipeHeld, (.awake, .idle)) := ha
      refine .bind ((pipereadCopy_safe addr n).mono fun r a ha => ?_)
      obtain ⟨s, rfl, ht⟩ := ha
      refine .andThen (Monitor.wakeup_safe .nwrite pipeMonitor_steady pipeMonitor_quiet ht.wakes
        hmem) fun _ => ?_
      exact .bind (pipe_unlock_safe le_rfl (.ret rfl))

def pipeCalls : Call → Bool
  | .pipewrite .. | .piperead .. | .pipeclose _ | .kill _ | .yield | .clockintr => true
  | _ => false

theorem pipe_life_safe : (pipeMonitor strict).outline.Safe t (∅, (.off, .idle)) (life pipeCalls t)
    fun _ _ => True := by
  have hs : (pipeMonitor strict).Steady := pipeMonitor_steady
  have hq : (pipeMonitor strict).Quiet .idle := pipeMonitor_quiet
  refine Monitor.life_safe hs hq pipeMonitor_detached (fun c hc _ => ?_) fun status hc => ?_
  · cases c with
    | pipewrite addr n => exact .andThen (pipewrite_safe addr n) fun _ => .ret rfl
    | piperead addr n => exact .andThen (piperead_safe addr n) fun _ => .ret rfl
    | pipeclose writable => exact .andThen (pipeclose_safe writable) fun _ => .ret rfl
    | kill pid => exact .andThen (pipeMonitor_kill pid) fun _ => .ret rfl
    | yield => exact .andThen (Monitor.yield_safe hs hq) fun _ => .ret rfl
    | clockintr => exact .andThen (Monitor.clockintr_safe hs hq) fun _ => .ret rfl
    | _ => cases hc
  · cases hc

structure FreshPipe (d : Tasks) : Prop where
  empty : d.pipe.empty = true
  trace : d.trace = []

theorem pipe_reached (strict : Prop) {w : KPool} (hd : NoSleeper d) (hp : FreshPipe d)
    (hr : Pool.Run (pipeMonitor strict).ok (kernelStart pipeCalls d) w) :
    ∃ g, Monitored (pipeMay strict) (fun _ => True) w.data (heldOf g) (sleepOf g) ∧
      PipeRest strict w.data g ∧ Held w.lock g := by
  refine Monitor.reached (m := pipeMonitor strict) hd ?_ (fun _ => pipe_life_safe) hr
  refine ⟨⟨[], ?_⟩, fun t => absurd rfl, fun t => trivial⟩
  rw [hp.trace]
  exact ⟨rfl, (d.pipe.empty_iff.mp hp.empty).symm, Nat.zero_le _, fun i h => absurd h (by simp)⟩

/-- A pipe as a queue, in a state that processes get to through `ws`. -/
structure Fifo (ws : List KPool) (w : KPool) : Prop where
  order : takenBytes w.data.trace <+: putBytes w.data.trace
  /-- The other bytes are in the buffer, in order, and as many as the counters differ by modulo
  `2^32`. -/
  pending : ∃ pending,
    Pending w.data.pipe (putBytes w.data.trace) (takenBytes w.data.trace) pending
  /-- A `read` that returns 0 without having met a bad address has found the pipe empty and its
  write end closed at some moment of the call. -/
  endOfFile : ∀ later earlier p addr n bytes,
    w.data.trace = later ++ .returned p (.piperead addr n) 0 bytes :: earlier → 0 < n.toInt →
      .badAddress p ∉ doneIn p earlier → ∃ v ∈ ws, InCall p (.piperead addr n) earlier v.data ∧
        v.data.pipe.empty = true ∧ v.data.pipe.writeopen = false

/-- For any interleaving of reads, writes, closes and kills. -/
theorem pipe_fifo {ws : List KPool} {w : KPool} (hd : NoSleeper d) (hp : FreshPipe d)
    (hr : Pool.Path Pool.anyStep (kernelStart pipeCalls d) ws w) : Fifo ws w := by
  obtain ⟨g, -, hrest, -⟩ := pipe_reached False hd hp (hr.run.mono fun _ _ _ _ _ => False.elim)
  obtain ⟨pending, hpend⟩ := hrest.fifo
  refine ⟨⟨pending, hpend.order.symm⟩, ⟨pending, hpend⟩,
    fun later earlier p addr n bytes hsplit hn hbad => ?_⟩
  have hcalls (c : Call) (hc : pipeCalls c) : answered c := by cases c <;> first | rfl | cases hc
  obtain ⟨-, hanswer⟩ := calls_right hcalls hp.trace hr later earlier _ hsplit
  obtain ⟨u, ⟨v, hv, rfl⟩, hin, hend⟩ := hanswer rfl hn hbad
  exact ⟨v, hv, hin, hend⟩

/-- Process 0 writes the byte 7, which process 1 reads; then process 0 closes its end, and the
next read of process 1 returns 0. -/
theorem pipe_fifo_one_byte : ∃ ws w,
    Pool.Path Pool.anyStep (kernelStart pipeCalls (processes 2)) ws w ∧
      putBytes w.data.trace = [7] ∧ takenBytes w.data.trace = [7] ∧
      .returned 1 (.piperead 16 2) 1 [7, 0] ∈ w.data.trace ∧
      .returned 1 (.piperead 16 2) 0 [7, 0] ∈ w.data.trace ∧ Fifo ws w := by
  obtain ⟨w, hr, hw⟩ := Pool.Run.exists_of_exec Pool.anyStep (kernelStart pipeCalls (processes 2))
    (steps 0 6 ++ [(0, .store 0 7)] ++ steps 0 1 ++ [(0, .call (.pipewrite 0 1))] ++ steps 0 268 ++
      steps 1 6 ++ [(1, .call (.piperead 16 2))] ++ steps 1 266 ++ [(0, .call (.pipeclose true))] ++
      steps 0 260 ++ [(1, .call (.piperead 16 2))] ++ steps 1 263)
    (fun w => decide (putBytes w.data.trace = [7] ∧ takenBytes w.data.trace = [7] ∧
      .returned 1 (.piperead 16 2) 1 [7, 0] ∈ w.data.trace ∧
      .returned 1 (.piperead 16 2) 0 [7, 0] ∈ w.data.trace)) (by decide +kernel)
  obtain ⟨hput, htaken, hone, hend⟩ := of_decide_eq_true hw
  obtain ⟨ws, hp⟩ := hr.path
  exact ⟨ws, w, hp, hput, htaken, hone, hend, pipe_fifo (processes_noSleeper 2) ⟨rfl, rfl⟩ hp⟩

/-- In every run in which no process is killed while it holds `pi->lock`, whenever the lock is
free nobody sleeps for bytes who should not, nor for room. -/
theorem pipe_sleepers_wait {w : KPool} (hd : NoSleeper d) (hp : FreshPipe d)
    (hr : Pool.Run (KillsOutside [.pipe]) (kernelStart pipeCalls d) w)
    (hfree : w.lock .pipe = none) (p : Fin NPROC) (hs : (w.data.proc p).state = .SLEEPING) :
    ((w.data.proc p).chan = .nread → w.data.pipe.empty = true ∧ w.data.pipe.writeopen = true) ∧
      ((w.data.proc p).chan = .nwrite → w.data.pipe.full = true ∧ w.data.pipe.readopen = true) := by
  obtain ⟨g, hm, -, hl⟩ := pipe_reached True hd hp (hr.mono fun _ _ _ _ h _ => h)
  have hnone := (hl.free_iff .pipe).mp hfree
  refine ⟨fun hc => ?_, fun hc => ?_⟩
  · have hmay := hm.may_of_free .nread hnone (.inl ⟨hs, hc⟩)
    exact hmay trivial
  · have hmay := hm.may_of_free .nwrite hnone (.inl ⟨hs, hc⟩)
    exact hmay trivial

/-- Process 0 writes a byte, process 2 kills it while it is in user space, and process 1 reads the
byte and sleeps for the next. -/
theorem pipe_sleepers_wait_reader : ∃ w : KPool,
    Pool.Run (KillsOutside [.pipe]) (kernelStart pipeCalls (processes 3)) w ∧
      putBytes w.data.trace = [7] ∧ (w.data.proc 0).killed = true ∧
      w.lock .pipe = none ∧ (w.data.proc 1).state = .SLEEPING ∧ (w.data.proc 1).chan = .nread ∧
      ((w.data.proc 1).chan = .nread → w.data.pipe.empty = true ∧ w.data.pipe.writeopen = true) ∧
      ((w.data.proc 1).chan = .nwrite → w.data.pipe.full = true ∧ w.data.pipe.readopen = true) := by
  obtain ⟨w, hr, hw⟩ := Pool.Run.exists_of_exec (KillsOutside [.pipe])
    (kernelStart pipeCalls (processes 3))
    (steps 0 6 ++ [(0, .store 0 7)] ++ steps 0 1 ++ [(0, .call (.pipewrite 0 1))] ++ steps 0 268 ++
      steps 2 6 ++ [(2, .call (.kill 1))] ++ steps 2 2 ++ [(2, .timer false)] ++ steps 2 4 ++
      steps 1 6 ++ [(1, .call (.piperead 16 2))] ++ steps 1 266 ++
      [(1, .call (.piperead 16 2))] ++ steps 1 11)
    (fun w => decide (putBytes w.data.trace = [7] ∧ (w.data.proc 0).killed = true ∧
      w.lock .pipe = none ∧ (w.data.proc 1).state = .SLEEPING ∧ (w.data.proc 1).chan = .nread))
    (by decide +kernel)
  obtain ⟨hput, hk, hfree, hs, hc⟩ := of_decide_eq_true hw
  exact ⟨w, hr, hput, hk, hfree, hs, hc,
    pipe_sleepers_wait (processes_noSleeper 3) ⟨rfl, rfl⟩ hr hfree 1 hs⟩

/-- A writer that is killed between two bytes returns without waking the readers: process 1
sleeps in `piperead`, process 0 puts a byte in, process 2 kills it, and it leaves with the lock
free and the byte unread. -/
theorem killed_writer_leaves_reader : ∃ w : KPool,
    Pool.Run Pool.anyStep (kernelStart pipeCalls (processes 3)) w ∧
      w.lock .pipe = none ∧ (w.data.proc 1).state = .SLEEPING ∧
      (w.data.proc 1).chan = .nread ∧ w.data.pipe.nread ≠ w.data.pipe.nwrite := by
  obtain ⟨w, hr, hw⟩ := Pool.Run.exists_of_exec Pool.anyStep (kernelStart pipeCalls (processes 3))
    (steps 1 6 ++ [(1, .call (.piperead 16 1))] ++ steps 1 11 ++
      steps 0 6 ++ [(0, .store 0 7)] ++ steps 0 1 ++ [(0, .call (.pipewrite 0 2))] ++ steps 0 9 ++
      steps 2 6 ++ [(2, .call (.kill 1))] ++ steps 2 2 ++ [(2, .timer false)] ++ steps 2 3 ++
      steps 0 6)
    (fun w => decide (w.lock .pipe = none ∧ (w.data.proc 1).state = .SLEEPING ∧
      (w.data.proc 1).chan = .nread ∧ w.data.pipe.nread ≠ w.data.pipe.nwrite)) (by decide +kernel)
  exact ⟨w, hr, of_decide_eq_true hw⟩

end Xv6.Threads
