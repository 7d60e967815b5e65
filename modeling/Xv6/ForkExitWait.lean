import Xv6.ProcFamily

/-! `kfork`, `kexit` and `kwait` keep the invariant of the process family. -/
namespace Xv6.Threads
open Code Function

variable {strict : Prop} {start : Tasks} {d d' : Tasks} {g : Modes FamilyMode} {t u q pp : Fin NPROC}
  {H : Set LockId} {s : SleepMode} {x : FamilyMode} {β : Type}

/-- A slot changes that is not running, and does not become a zombie. -/
theorem family_rouse (hm : Monitored familyMay (fun _ => True) d (heldOf g) (sleepOf g))
    (hg : g t = (H, (.awake, x))) (hothers : ∀ j, j ≠ q → d'.proc j = d.proc j)
    (hs : (d.proc q).state ≠ .RUNNING) (hs' : (d'.proc q).state ≠ .SLEEPING)
    (hz : (d'.proc q).state ≠ .ZOMBIE) :
    Monitored familyMay (fun _ => True) d' (heldOf g) (update (sleepOf g) t .awake) := by
  refine Monitored.stay (hm.rouse hothers hs hs' fun c j hw => familyMay_of hw
    fun k r hk hkz => ?_) hg
  by_cases hkq : k = q
  · subst hkq
    exact absurd hkz hz
  · rw [hothers k hkq] at hk hkz
    exact ⟨hk, hkz⟩

theorem family_record {held : Fin NPROC → Set LockId} {mode : Fin NPROC → SleepMode}
    (hm : Monitored familyMay (fun _ => True) d held mode) (e : Event) :
    Monitored familyMay (fun _ => True) (d.record e) held mode :=
  hm.keep (fun _ => ⟨rfl, fun _ => rfl⟩) fun _ _ hmay => familyMay_of hmay fun _ _ hk hz => ⟨hk, hz⟩

/-! The writes of `allocproc` and `kfork`. -/

theorem allocproc_write_safe : (family strict start).Leads t (H, (.awake, .unused q))
    (write fun d => d.allocproc q : KCode Unit) (H, (.awake, .created q)) := by
  refine Monitor.write_safe fun d lock g hm hl hr hg _ => ⟨.awake, .created q, ?_, ?_, rfl⟩
  all_goals
    obtain ⟨hq, hs⟩ := FamilyRest.known hr hg
    have hothers (j : Fin NPROC) (hj : j ≠ q) : (d.allocproc q).proc j = d.proc j :=
      update_of_ne hj ..
    have hself : (d.allocproc q).proc q = { d.proc q with pid := d.nextpid, state := .USED } :=
      update_self ..
    have hs' : ((d.allocproc q).proc q).state = .USED := by rw [hself]
  · exact family_rouse hm hg hothers (by rw [hs]; simp) (by rw [hs']; simp) (by rw [hs']; simp)
  · have hd : Alters d (d.allocproc q) t q H (.unused q) :=
      { others := hothers
        init := rfl
        locked := .inl hq
        used := fun h => by rw [hs] at h; cases h
        parent := .inl (by rw [hself])
        unused := fun h => by rw [hs'] at h; cases h
        zombie := fun h => by rw [hs'] at h; cases h
        alive := fun h => by rw [hs] at h; exact h.elim }
    refine hr.alter (exclusive_of_held hl) hg hd ?_ ?_ (fun _ hb => hb.alloc q) ?_ ?_
    · exact (hr.ledger.alter hothers (by rw [hs]; simp) (by rw [hs']; simp)).other rfl
    · exact fun hst => (hr.provenance hst).alloc hothers hs (by rw [hs']; simp) (by rw [hself])
    · refine ⟨hq, hs', ?_⟩
      rw [hself]
      exact hr.rooted.unused q hs
    · rintro r (h | h)
      · obtain rfl := FamilyMode.created.inj h
        exact .inr (by rw [hs]; simp)
      · cases h

theorem freeproc_write_safe : (family strict start).Leads t (H, (.awake, .created q))
    (write fun d => d.freeproc q : KCode Unit) (H, (.awake, .idle)) := by
  refine Monitor.write_safe fun d lock g hm hl hr hg _ => ⟨.awake, .idle, ?_, ?_, rfl⟩
  all_goals
    obtain ⟨hq, hs, hp⟩ := FamilyRest.known hr hg
    have hothers (j : Fin NPROC) (hj : j ≠ q) : (d.freeproc q).proc j = d.proc j :=
      Tasks.setProc_of_ne _ hj _
    have hself : (d.freeproc q).proc q = ⟨.UNUSED, .null, false, 0, 0, none⟩ :=
      Tasks.setProc_self ..
    have hs' : ((d.freeproc q).proc q).state = .UNUSED := by rw [hself]
  · exact family_rouse hm hg hothers (by rw [hs]; simp) (by rw [hs']; simp) (by rw [hs']; simp)
  · have hd : Alters d (d.freeproc q) t q H (.created q) :=
      { others := hothers
        init := rfl
        locked := .inl hq
        used := fun _ => .inr (.inl rfl)
        parent := .inl (by rw [hself, hp])
        unused := fun _ => by rw [hself]
        zombie := fun h => by rw [hs'] at h; cases h
        alive := fun h => by rw [hs] at h; exact h.elim }
    refine hr.alter (exclusive_of_held hl) hg hd ?_ ?_ (fun _ hb => ?_) trivial (by simp)
    · exact hr.ledger.alter hothers (by rw [hs]; simp) (by rw [hs']; simp)
    · exact fun hst => (hr.provenance hst).slot hothers (by rw [hself]; simp) (by rw [hself]; simp)
    · exact hb.slot rfl rfl hothers (.inr (by rw [hself]; exact ⟨rfl, rfl⟩))

theorem parent_write_safe (hw : .wait ∈ H) :
    (family strict start).Keeps t (H, (.awake, .forks q))
      (onProc q fun pr => { pr with parent := some t }) := by
  refine Monitor.write_safe fun d lock g hm hl hr hg _ => ?_
  obtain ⟨d', hd'⟩ : ∃ d', d' = d.setProc q fun pr => { pr with parent := some t } := ⟨_, rfl⟩
  rw [← hd']
  have hs := FamilyRest.known hr hg
  have ht := sleepOf_eq hg
  have hrun := hm.running t (by rw [ht]; simp)
  have hothers (j : Fin NPROC) (hj : j ≠ q) : d'.proc j = d.proc j := by
    rw [hd', Tasks.setProc_of_ne _ hj]
  have hself : d'.proc q = { d.proc q with parent := some t } := by rw [hd', Tasks.setProc_self]
  have hs' : (d'.proc q).state = .USED := by rw [hself, hs]
  have hne : t ≠ q := fun h => by rw [h, hs] at hrun; cases hrun
  refine ⟨.awake, .forks q, ?_, ?_, rfl⟩
  · refine (hm.keep_slot hothers (by rw [hself]) (fun _ => by rw [hself])
      fun c j hmay => familyMay_of hmay fun k r hk hz => ?_).stay hg
    by_cases hkq : k = q
    · rw [hkq, hs'] at hz
      cases hz
    · rw [hothers k hkq] at hk hz
      exact ⟨hk, hz⟩
  · have hd : Alters d d' t q H (.forks q) :=
      { others := hothers
        init := by rw [hd']; rfl
        locked := .inr (by rw [hself]; exact ⟨rfl, rfl, rfl⟩)
        used := fun _ => .inl hs'
        parent := .inr ⟨hw, .inl (.inr rfl), fun r h => by
          rw [hself] at h
          cases h
          rw [hothers t hne, hrun]
          trivial⟩
        unused := fun h => by rw [hs'] at h; cases h
        zombie := fun h => by rw [hs'] at h; cases h
        alive := fun h => by rw [hs] at h; exact h.elim }
    refine hr.alter (exclusive_of_held hl) hg hd ?_ ?_ (fun _ hb => ?_) hs' fun r h => .inl h
    · have htrace : d'.trace = d.trace := by rw [hd']; rfl
      rw [htrace]
      exact hr.ledger.alter hothers (by rw [hs]; simp) (by rw [hs']; simp)
    · intro hst
      have htrace : d'.trace = d.trace := by rw [hd']; rfl
      have hp := hr.provenance hst
      rw [htrace]
      exact hp.slot hothers (by rw [hself]; exact hp.unused q) (by rw [hself]; exact hp.killed q)
    · exact hb.slot (by rw [hd']; rfl) (by rw [hd']; rfl) hothers
        (.inl (by rw [hself]; exact ⟨rfl, id⟩))

theorem runnable_write_safe (hq : .proc q ∈ H) :
    (family strict start).Leads t (H, (.awake, .forks q))
      (onProc q fun pr => { pr with state := .RUNNABLE }) (H, (.awake, .idle)) := by
  refine Monitor.write_safe fun d lock g hm hl hr hg _ => ?_
  obtain ⟨d', hd'⟩ : ∃ d', d' = d.setProc q fun pr => { pr with state := .RUNNABLE } := ⟨_, rfl⟩
  rw [← hd']
  have hs := FamilyRest.known hr hg
  have htrace : d'.trace = d.trace := by rw [hd']; rfl
  have hothers (j : Fin NPROC) (hj : j ≠ q) : d'.proc j = d.proc j := by
    rw [hd', Tasks.setProc_of_ne _ hj]
  have hself : d'.proc q = { d.proc q with state := .RUNNABLE } := by rw [hd', Tasks.setProc_self]
  have hs' : (d'.proc q).state = .RUNNABLE := by rw [hself]
  refine ⟨.awake, .idle, family_rouse hm hg hothers (by rw [hs]; simp) (by rw [hs']; simp)
    (by rw [hs']; simp), ?_, rfl⟩
  have hd : Alters d d' t q H (.forks q) :=
    { others := hothers
      init := by rw [hd']; rfl
      locked := .inl hq
      used := fun _ => .inr (.inr rfl)
      parent := .inl (by rw [hself])
      unused := fun h => by rw [hs'] at h; cases h
      zombie := fun h => by rw [hs'] at h; cases h
      alive := fun h => by rw [hs] at h; exact h.elim }
  refine hr.alter (exclusive_of_held hl) hg hd ?_ ?_ (fun _ hb => ?_) trivial (by simp)
  · rw [htrace]
    exact hr.ledger.alter hothers (by rw [hs]; simp) (by rw [hs']; simp)
  · intro hst
    rw [htrace]
    have hp := hr.provenance hst
    exact hp.slot hothers (by rw [hself]; simp) (by rw [hself]; exact hp.killed q)
  · exact hb.slot (by rw [hd']; rfl) htrace hothers
      (.inl ⟨by rw [hself], fun _ => by rw [hs]; simp⟩)

/-! `allocproc` and `kfork`. -/

variable {Q : Unit → Stand FamilyMode → Prop} {l : LockId}

theorem family_unlock_safe (x' : FamilyMode) (hs : s.settled) (hl : l ∉ H)
    (hx : ∀ d, x.knows d t (insert l H) → x'.knows d t H) (ho : ∀ q, x'.owns q → x.owns q)
    (hQ : Q () (H, (.awake, x'))) :
    (family strict start).Safe t (insert l H, (s, x)) (unlock l : KCode Unit) Q := by
  refine Monitor.unlock_settled x' hs hl (fun d g hr hg => ?_) hQ
  exact FamilyRest.enter hr (hx d (FamilyRest.known hr hg)) fun q hq => by
    rw [hg]
    exact ho q hq

theorem family_lock_safe (x' : FamilyMode)
    (hx : ∀ d, x.knows d t H → x'.knows d t (insert l H)) (ho : ∀ q, x'.owns q → x.owns q)
    (hQ : l ∉ H → Q () (insert l H, (.awake, x'))) :
    (family strict start).Safe t (H, (.awake, x)) (lock l : KCode Unit) Q := by
  refine Monitor.lock_safe .awake x' (fun d g hm _ _ hg _ => ?_) (fun d g hr hg _ => ?_) hQ
  · exact Monitor.relocked hm hg (Set.empty_subset _)
  · refine FamilyRest.enter hr (hx d (FamilyRest.known hr hg)) fun q hq => ?_
    rw [hg]
    exact ho q hq

theorem unlock_idle (l : LockId) (hl : l ∉ H) (hQ : Q () (H, (.awake, .idle))) :
    (family strict start).Safe t (insert l H, (.awake, x)) (unlock l : KCode Unit) Q :=
  family_unlock_safe (s := .awake) .idle trivial hl (fun _ _ => trivial)
    (by simp) hQ

theorem allocproc_safe : (family strict start).Safe t (∅, (.awake, .idle)) (allocproc t)
    fun r a => a = r.elim (∅, (.awake, .idle)) fun q => (insert (.proc q) ∅, (.awake, .created q)) := by
  have hq : (familyMonitor strict start).Idle .idle := familyMonitor_idle
  refine .bind ((forProcs_safe (fun _ a => a = (∅, (SleepMode.awake, FamilyMode.idle)))
    (Q := fun r a => a = r.elim (∅, (SleepMode.awake, FamilyMode.idle))
      fun q => (insert (.proc q) ∅, (.awake, .unused q)))
    (fun q a ha => ?_) rfl fun a ha => ha).mono fun r a ha => ?_)
  · subst ha
    refine .andThen (Monitor.preempt_safe familyMonitor_steady hq.toQuiet) fun _ => ?_
    refine .bind (hq.lock fun hH => .bind (Monitor.read_safe fun d lock g hm hl hr hg => ?_))
    split_ifs with hs
    · exact ⟨.unused q, FamilyRest.enter hr ⟨Set.mem_insert .., hs⟩ (by simp), .ret rfl⟩
    · exact ⟨.idle, FamilyRest.enter hr trivial (by simp), .bind (unlock_idle _ hH (.ret rfl))⟩
  · subst ha
    cases r with
    | none => exact .ret rfl
    | some q =>
      refine .andThen allocproc_write_safe fun _ => .bind ?_
      refine Monitor.succeeds_safe fun ok => ?_
      cases ok with
      | true => exact .ret rfl
      | false =>
        refine .andThen freeproc_write_safe fun _ => ?_
        exact .bind (unlock_idle _ (Set.notMem_empty _) (.ret rfl))

theorem kfork_safe : (family strict start).Keeps t (∅, (.awake, .idle)) (kfork t) := by
  refine .bind (allocproc_safe.mono fun r a ha => ?_)
  subst ha
  cases r with
  | none => exact .ret rfl
  | some q =>
    have hq : (familyMonitor strict start).Quiet (.forks q) := familyMonitor_quiet trivial
    refine .bind (Monitor.succeeds_safe fun ok => ?_)
    cases ok with
    | false =>
      refine .andThen freeproc_write_safe fun _ => ?_
      exact .bind (unlock_idle _ (Set.notMem_empty _) (.ret rfl))
    | true =>
      -- Giving back the lock of the new process.
      refine .bind (Monitor.access_same fun _ d lock g b d' hm hl hr hg hf _ => ?_)
      cases hf
      refine ⟨family_record hm _, ?_, ?_⟩
      · have hs : (d.proc q).state ≠ .UNUSED := by
          rw [(FamilyRest.known hr hg).2.1]
          simp
        exact FamilyRest.mild hr (Mild.of_proc rfl rfl) (hr.ledger.other rfl)
          (fun _ hp => hp.event (by simp)) fun _ hb => hb.fork hs t
      refine .bind (family_unlock_safe (s := .awake) (x := .created q) (.forks q) trivial
        (Set.notMem_empty _) (fun d hk => hk.2.1)
        (fun r h => h.elim (by simp) fun h => .inl (by rw [FamilyMode.forks.inj h])) ?_)
      refine .andThen (Monitor.preempt_safe familyMonitor_steady hq) fun _ => ?_
      refine .bind (family_lock_safe (x := .forks q) (.forks q) (fun _ hk => hk) (fun _ h => h)
        fun hH => .andThen (parent_write_safe (Set.mem_insert ..)) fun _ => ?_)
      refine .bind (family_unlock_safe (s := .awake) (x := .forks q) (.forks q) trivial hH
        (fun _ hk => hk) (fun _ h => h) ?_)
      refine .andThen (Monitor.preempt_safe familyMonitor_steady hq) fun _ => ?_
      refine .bind (family_lock_safe (x := .forks q) (.forks q) (fun _ hk => hk) (fun _ h => h)
        fun hH => .andThen (runnable_write_safe (Set.mem_insert ..)) fun _ => ?_)
      exact .bind (unlock_idle _ hH (.ret rfl))

/-! `kexit`. -/

theorem reparent_access_safe (hs : s.settled) {Q : Option (Fin NPROC) →
      Stand FamilyMode → Prop}
    (hnone : Q none (H, (s, .exits (pp.val+1))))
    (hsome : ∀ i, Q (some i) (H, (.owes (.proc i) 0, .exits (pp.val+1)))) :
    (family strict start).Safe t (H, (s, .exits pp.val)) (access fun _ d =>
      if (d.proc pp).parent = some t then
        some (some d.initproc, d.setProc pp fun pr => { pr with parent := some d.initproc })
      else some (none, d) : KCode _) Q := by
  refine Monitor.access_safe fun _ d lock g b d' hm hl hr hg hf _ => ?_
  obtain ⟨hw, hi, hbefore⟩ := FamilyRest.known hr hg
  have hex := exclusive_of_held hl
  have ht := sleepOf_eq hg
  split_ifs at hf with hp
  · obtain ⟨rfl, hd'⟩ := Prod.mk.inj (Option.some.inj hf)
    have hothers (j : Fin NPROC) (hj : j ≠ pp) : d'.proc j = d.proc j := by
      rw [← hd', Tasks.setProc_of_ne _ hj]
    have hself : d'.proc pp = { d.proc pp with parent := some d.initproc } := by
      rw [← hd', Tasks.setProc_self]
    have hinit : d'.initproc = d.initproc := by rw [← hd']; rfl
    have htrace : d'.trace = d.trace := by rw [← hd']; rfl
    have hstate (j : Fin NPROC) : (d'.proc j).state = (d.proc j).state ∧
        (d'.proc j).chan = (d.proc j).chan := by
      by_cases hj : j = pp
      · rw [hj, hself]
        exact ⟨rfl, rfl⟩
      · rw [hothers j hj]
        exact ⟨rfl, rfl⟩
    refine ⟨.owes (.proc d.initproc) 0, .exits (pp.val+1), ?_, ?_, hsome _⟩
    · have hm' : Monitored familyMay (fun _ => True) d (heldOf g)
          (update (sleepOf g) t (.owes (.proc d.initproc) 0)) :=
        hm.owe hex (by rwa [ht]) (by rw [heldOf, hg]; exact hw)
      refine hm'.spoil hex (update_self ..) (.inl trivial) hstate fun c j hc hmay => ?_
      cases c with
      | proc r =>
        intro k hk hz
        rw [(hstate k).1] at hz
        by_cases hkp : k = pp
        · rw [hkp, hself] at hk
          exact hc (by rw [Option.some.inj hk])
        · rw [hothers k hkp] at hk
          exact hmay k hk hz
      | _ => trivial
    · have hd : Alters d d' t pp H (.exits pp.val) :=
        { others := hothers
          init := hinit
          locked := .inr (by rw [hself]; exact ⟨rfl, rfl, rfl⟩)
          used := fun h => .inl (by rwa [hself])
          parent := .inr ⟨hw, .inr (by rw [hp]; simp), fun r h => by
            rw [hself] at h
            cases h
            rw [(hstate _).1]
            exact hr.rooted.init⟩
          unused := fun h => by
            rw [hself] at h
            rw [hr.rooted.unused pp h] at hp
            cases hp
          zombie := fun h => .inl (by rwa [hself] at h)
          alive := fun h => .inl (by rwa [hself]) }
      refine hr.alter hex hg hd ?_ ?_ (fun _ hb => ?_) ⟨hw, by rwa [hinit], fun c hc hcp => ?_⟩ (by simp)
      · rw [htrace]
        refine hr.ledger.congr fun c => ?_
        by_cases hc : c = pp
        · rw [hc, hself]
          rfl
        · rw [hothers c hc]
      · intro hst
        rw [htrace]
        have hp := hr.provenance hst
        exact hp.slot hothers (by rw [hself]; exact hp.unused pp) (by rw [hself]; exact hp.killed pp)
      · exact hb.slot (by rw [← hd']; rfl) htrace hothers (.inl (by rw [hself]; exact ⟨rfl, id⟩))
      · by_cases hcpp : c = pp
        · rw [hcpp, hself] at hcp
          exact hi (Option.some.inj hcp).symm
        · rw [hothers c hcpp] at hcp
          exact hbefore c (by omega) hcp
  · cases hf
    refine ⟨s, .exits (pp.val+1), hm.stay hg, ?_, hnone⟩
    refine FamilyRest.enter hr ⟨hw, hi, fun c hc hcp => ?_⟩ (by simp)
    by_cases hcpp : c = pp
    · rw [hcpp] at hcp
      exact hp hcp
    · exact hbefore c (by omega) hcp

theorem reparent_safe (hw : .wait ∈ H) :
    (family strict start).Safe t (H, (.awake, .exits 0)) (reparent t)
      fun _ a => ∃ s : SleepMode, s.settled ∧ a = (H, (s, .exits NPROC)) := by
  refine forEach_safe (fun i a => ∃ s : SleepMode, s.settled ∧ a = (H, (s, .exits i)))
    (fun pp a ha => ?_) ⟨.awake, trivial, rfl⟩ fun a ha => ha
  obtain ⟨s, hs, rfl⟩ := ha
  refine .bind (reparent_access_safe hs (.ret ⟨s, hs, rfl⟩) fun i => ?_)
  exact (Monitor.wakeup_safe (.proc i) familyMonitor_steady
    (familyMonitor_quiet (x := .exits (pp.val+1)) trivial) (.inl rfl) hw).mono
    fun _ a ha => ⟨_, le_rfl, ha⟩

theorem exit_write_safe (status : Int32) {parent : Option (Fin NPROC)} (ht : .proc t ∈ H) :
    (family strict start).Leads t (H, (.owes (.ofParent parent) NPROC, .leaves parent))
      (write fun d => (d.record (.exit t (d.proc t).pid status)).setProc t fun pr =>
        { pr with xstate := status, state := .ZOMBIE } : KCode Unit) (H, (.off, .idle)) := by
  refine Monitor.write_safe fun d lock g hm hl hr hg _ => ?_
  obtain ⟨d', hd'⟩ : ∃ d', d' = (d.record (.exit t (d.proc t).pid status)).setProc t fun pr =>
    { pr with xstate := status, state := .ZOMBIE } := ⟨_, rfl⟩
  rw [← hd']
  obtain ⟨hw, hi, hnochild, hlive, hparent⟩ := FamilyRest.known hr hg
  have hmode := sleepOf_eq hg
  have hrun := hm.running t (by rw [hmode]; simp)
  have hothers (j : Fin NPROC) (hj : j ≠ t) : d'.proc j = d.proc j := by
    rw [hd', Tasks.setProc_of_ne _ hj]
    rfl
  have hself : d'.proc t = { d.proc t with xstate := status, state := .ZOMBIE } := by
    rw [hd', Tasks.setProc_self]
    rfl
  have htrace : d'.trace = .exit t (d.proc t).pid status :: d.trace := by rw [hd']; rfl
  refine ⟨.off, .idle, ?_, ?_, rfl⟩
  · refine hm.shift (exclusive_of_held hl) hothers (Set.empty_subset _) (by simp) (by simp)
      (fun c i h => ?_) (by simp)
      (fun c ha => absurd ha (not_asleep_update (by rw [hself]; simp) (by simp))) fun c j hmay => ?_
    · rw [hmode] at h
      exact (SleepMode.owes.inj h).2.le
    · cases c with
      | proc r =>
        by_cases hr' : parent = some r
        · exact .inr ⟨NPROC, by rw [hmode, hr']; rfl⟩
        · refine .inl fun k hk hz => ?_
          by_cases hkt : k = t
          · rw [hkt, hself] at hk
            exact hr' (hparent.symm.trans hk)
          · rw [hothers k hkt] at hk hz
            exact hmay k hk hz
      | _ => exact .inl trivial
  · have hd : Alters d d' t t H (.leaves parent) :=
      { others := hothers
        init := by rw [hd']; rfl
        locked := .inl ht
        used := fun h => by rw [hrun] at h; cases h
        parent := .inl (by rw [hself])
        unused := fun h => by rw [hself] at h; cases h
        zombie := fun _ => .inr hw
        alive := fun _ => .inr ⟨rfl, hi, hnochild⟩ }
    refine hr.alter (exclusive_of_held hl) hg hd ?_ ?_ (fun _ hb => ?_) trivial (by simp)
    · rw [htrace]
      exact hr.ledger.exit hothers (by rw [hrun]; simp) (by rw [hself]) (by rw [hself])
        (by rw [hself])
    · intro hst
      rw [htrace]
      have hexit : Provenance d.proc (.exit t (d.proc t).pid status :: d.trace) :=
        (hr.provenance hst).event (by simp)
      exact hexit.slot hothers (by rw [hself]; simp) (by rw [hself]; exact hexit.killed t)
    · exact (hb.event rfl).slot (by rw [hd']; rfl) htrace hothers
        (.inl ⟨by rw [hself]; rfl, fun _ => by change (d.proc t).state ≠ _; rw [hrun]; simp⟩)

theorem Chan.ofParent_lock (parent : Option (Fin NPROC)) : (Chan.ofParent parent).lock = .wait := by
  cases parent <;> rfl

theorem off_unlock_safe (hQ : Q () (H \ {l}, (.off, .idle))) :
    (family strict start).Safe t (H, (.off, .idle)) (unlock l : KCode Unit) Q :=
  Monitor.unlock_safe .off .idle (fun _ _ hm _ hg => Monitor.relocked hm hg (Set.empty_subset _))
    (fun _ _ hr hg => familyMonitor_idle.anyLocks hr (by rw [hg])) fun _ => hQ

theorem kexit_safe (status : Int32) : (family strict start).Leads t (∅, (.awake, .idle))
    (kexit t status) (∅, (.off, .idle)) := by
  refine .bind (Monitor.access_safe fun _ d lock g b d' hm hl hr hg hf _ => ?_)
  obtain ⟨hi, hf'⟩ := Option.ite_none_left_eq_some.mp hf
  cases hf'
  refine ⟨.awake, .dying, hm.stay hg, FamilyRest.enter hr hi (by simp), ?_⟩
  refine .bind (family_lock_safe (x := .dying) (.exits 0)
    (fun d hk => ⟨Set.mem_insert .., hk, fun c hc => absurd hc (by omega)⟩)
    (by simp) fun hH => .bind ?_)
  refine (reparent_safe (Set.mem_insert ..)).mono fun _ a ha => ?_
  obtain ⟨s, hs, rfl⟩ := ha
  -- No children are left: from here on the process counts as leaving.
  refine .bind (Monitor.read_safe fun d lock g hm hl hr hg => ?_)
  have hmode := sleepOf_eq hg
  obtain ⟨hw, hi, hnochild⟩ := FamilyRest.known hr hg
  have hrun : (d.proc t).state = .RUNNING := by
    refine hm.running t fun hoff => ?_
    rw [← hmode, hoff] at hs
    exact hs
  refine ⟨.leaves (d.proc t).parent,
    FamilyRest.enter hr ⟨hw, hi, fun c => hnochild c c.isLt, by rw [hrun]; trivial, rfl⟩ (by simp), ?_⟩
  have hq : (familyMonitor strict start).Quiet (.leaves (d.proc t).parent) := familyMonitor_quiet trivial
  refine .andThen (Monitor.wakeup_safe (.ofParent (d.proc t).parent) familyMonitor_steady hq
    (.inr ⟨rfl, hs⟩) ?_) fun _ => ?_
  · rw [Chan.ofParent_lock]
    exact Set.mem_insert ..
  refine .bind (hq.lock_proc fun hp =>
    .andThen (exit_write_safe status (Set.mem_insert ..)) fun _ => ?_)
  refine .bind (off_unlock_safe (off_unlock_safe ?_))
  rw [Set.sdiff_sdiff_comm, Set.insert_sdiff_self_of_notMem hp, Set.insert_sdiff_self_of_notMem hH]

/-! `kwait`. -/

theorem family_read_safe {f : Tasks → β} {Q : β → Stand FamilyMode → Prop}
    (hQ : ∀ d, x.knows d t H → Q (f d) (H, (s, x))) :
    (family strict start).Safe t (H, (s, x)) (read f : KCode β) Q := by
  refine Monitor.read_safe fun d lock g hm hl hr hg => ?_
  exact ⟨x, by rwa [← hg, update_eq_self], hQ d (FamilyRest.known hr hg)⟩

theorem waitFailed_write_safe {pid status : Int32} :
    (family strict start).Keeps t (H, (.awake, .zombie pp pid status))
      (write fun d => d.record (.waitFailed t pp) : KCode Unit) := by
  refine Monitor.write_safe fun d lock g hm hl hr hg _ =>
    ⟨.awake, .zombie pp pid status, (family_record hm _).stay hg, ?_, rfl⟩
  rw [← hg, update_eq_self]
  exact FamilyRest.mild hr (Mild.of_proc rfl rfl)
    (hr.ledger.fail (FamilyRest.known hr hg).2.2.1) (fun _ hp => hp.event (by simp))
    fun _ hb => hb.event rfl

theorem reap_write_safe {pid status : Int32} :
    (family strict start).Leads t (H, (.awake, .zombie pp pid status))
      (write fun d => (d.record (.reaped t pp (d.proc pp).parent pid status)).freeproc pp :
        KCode Unit) (H, (.awake, .idle)) := by
  refine Monitor.write_safe fun d lock g hm hl hr hg _ => ?_
  obtain ⟨d', hd'⟩ : ∃ d', d' =
    (d.record (.reaped t pp (d.proc pp).parent pid status)).freeproc pp := ⟨_, rfl⟩
  rw [← hd']
  obtain ⟨hw, hq, hs, hp, rfl, rfl⟩ := FamilyRest.known hr hg
  have hothers (j : Fin NPROC) (hj : j ≠ pp) : d'.proc j = d.proc j := by
    rw [hd', Tasks.freeproc, Tasks.setProc_of_ne _ hj]
    rfl
  have hself : d'.proc pp = ⟨.UNUSED, .null, false, 0, 0, none⟩ := by
    rw [hd', Tasks.freeproc, Tasks.setProc_self]
  have hs' : (d'.proc pp).state = .UNUSED := by rw [hself]
  have htrace : d'.trace =
      .reaped t pp (some t) (d.proc pp).pid (d.proc pp).xstate :: d.trace := by rw [hd', ← hp]; rfl
  refine ⟨.awake, .idle, family_rouse hm hg hothers (by rw [hs]; simp) (by rw [hs']; simp)
    (by rw [hs']; simp), ?_, rfl⟩
  have hd : Alters d d' t pp H (.zombie pp (d.proc pp).pid (d.proc pp).xstate) :=
    { others := hothers
      init := by rw [hd']; rfl
      locked := .inl hq
      used := fun h => by rw [hs] at h; cases h
      parent := .inr ⟨hw, .inr (by rw [hp]; simp), fun r h => by rw [hself] at h; cases h⟩
      unused := fun _ => by rw [hself]
      zombie := fun h => by rw [hs'] at h; cases h
      alive := fun h => by rw [hs] at h; exact h.elim }
  refine hr.alter (exclusive_of_held hl) hg hd ?_ ?_ (fun _ hb => ?_) trivial (by simp)
  · rw [htrace]
    exact hr.ledger.reap hothers hs (by rw [hs']; simp)
  · intro hst
    rw [htrace]
    have hreap : Provenance d.proc
        (.reaped t pp (some t) (d.proc pp).pid (d.proc pp).xstate :: d.trace) :=
      (hr.provenance hst).event (by simp)
    exact hreap.slot hothers (by rw [hself]; simp) (by rw [hself]; simp)
  · exact (hb.event rfl).slot (by rw [hd']; rfl) htrace hothers
      (.inr (by rw [hself]; exact ⟨rfl, rfl⟩))

theorem scanned_succ {i : ℕ} (h : (FamilyMode.scans i).knows d t H)
    (hpp : pp.val = i) (hz : (d.proc pp).parent = some t → (d.proc pp).state ≠ .ZOMBIE) :
    (FamilyMode.scans (i+1)).knows d t H := by
  refine ⟨h.1, fun c hc hcp => ?_⟩
  by_cases hcpp : c = pp
  · subst hcpp
    exact hz hcp
  · exact h.2 c (by omega) hcp

theorem kwaitChild_safe (addr : UInt64) {havekids : ℕ × Bool} (hpp : pp.val = havekids.1)
    (hH : .proc pp ∉ H) :
    (family strict start).Safe t (insert (.proc pp) H, (.awake, .child pp)) (do
      let state ← read fun d => (d.proc pp).state
      if state = .ZOMBIE then do
        let pid ← read fun d => (d.proc pp).pid
        let status ← read fun d => (d.proc pp).xstate
        let ok ← if addr ≠ 0 then copyout t addr (intBytes status) else pure true
        if ok then do
          write fun d =>
            (d.record (.reaped t pp (d.proc pp).parent pid status)).freeproc pp
          unlock (.proc pp)
          pure (.inr (.reaped pid))
        else do
          write fun d => d.record (.waitFailed t pp)
          unlock (.proc pp)
          pure (.inr .copyFailed)
      else do
        unlock (.proc pp)
        pure (.inl (havekids.1+1, true)) : KCode ((ℕ × Bool) ⊕ Scan)) fun r a =>
      match r with
      | .inl k => k.1 = havekids.1+1 ∧ a = (H, (.awake, .scans k.1))
      | .inr scan => (∀ kids, scan ≠ .kids kids) ∧ a = (H, (.awake, .idle)) := by
  refine .bind (Monitor.read_safe fun d lock g hm hl hr hg => ?_)
  obtain ⟨hw, hbefore, hp⟩ := FamilyRest.known hr hg
  by_cases hz : (d.proc pp).state = .ZOMBIE
  · rw [if_pos hz]
    obtain ⟨pid, hpid⟩ : ∃ pid, (d.proc pp).pid = pid := ⟨_, rfl⟩
    obtain ⟨status, hstatus⟩ : ∃ status, (d.proc pp).xstate = status := ⟨_, rfl⟩
    refine ⟨.zombie pp pid status,
      FamilyRest.enter hr ⟨hw, Set.mem_insert .., hz, hp, hpid, hstatus⟩ (by simp), ?_⟩
    -- Both values it reads are those of the zombie.
    refine .bind (family_read_safe fun d hk => ?_)
    rw [hk.2.2.2.2.1]
    refine .bind (family_read_safe fun d hk => ?_)
    rw [hk.2.2.2.2.2]
    by_cases ha : addr ≠ 0
    · rw [if_pos ha]
      refine .bind (Monitor.copyout_safe familyMonitor_detached fun ok => ?_)
      cases ok with
      | true =>
        refine .andThen reap_write_safe fun _ => ?_
        exact .bind (unlock_idle _ hH (.ret ⟨by simp, rfl⟩))
      | false =>
        refine .andThen waitFailed_write_safe fun _ => ?_
        exact .bind (unlock_idle _ hH (.ret ⟨by simp, rfl⟩))
    · rw [if_neg ha]
      refine .bind (.ret (.andThen reap_write_safe fun _ => ?_))
      exact .bind (unlock_idle _ hH (.ret ⟨by simp, rfl⟩))
  · rw [if_neg hz]
    refine ⟨.scans (havekids.1+1),
      FamilyRest.enter hr (scanned_succ ⟨hw, hpp ▸ hbefore⟩ hpp fun _ => hz) (by simp), ?_⟩
    exact .bind ((familyMonitor_quiet (x := .scans (havekids.1+1)) trivial).unlock_last hH
      (Set.empty_subset _) (.ret ⟨rfl, rfl⟩))

/-- The scan of `kwait` ends with a child reported, or with no zombie child. -/
theorem kwaitScan_safe (addr : UInt64) :
    (family strict start).Safe t (H, (.awake, .scans 0)) (kwaitScan t addr) fun r a =>
      match r with
      | .kids _ => a = (H, (.awake, .scans NPROC))
      | _ => a = (H, (.awake, .idle)) := by
  refine Outline.Safe.loop (fun k a => k.1 ≤ NPROC ∧ a = (H, (.awake, .scans k.1)))
    (fun k a ha => ?_) ⟨by omega, rfl⟩
  obtain ⟨hk, rfl⟩ := ha
  by_cases hlt : k.1 < NPROC
  · rw [dif_pos hlt]
    refine .bind (Monitor.read_safe fun d lock g hm hl hr hg => ?_)
    have hscan := FamilyRest.known hr hg
    by_cases hp : (d.proc ⟨k.1, hlt⟩).parent = some t
    · refine ⟨.child ⟨k.1, hlt⟩,
        FamilyRest.enter hr ⟨hscan.1, hscan.2, hp⟩ (by simp), ?_⟩
      rw [decide_eq_true hp]
      have hq : (familyMonitor strict start).Quiet (.child ⟨k.1, hlt⟩) := familyMonitor_quiet trivial
      refine .bind (hq.lock_proc fun hH => (kwaitChild_safe addr rfl hH).mono fun r a ha => ?_)
      cases r with
      | inl k' =>
        obtain ⟨hk', rfl⟩ := ha
        exact ⟨by omega, rfl⟩
      | inr scan =>
        obtain ⟨hscan, rfl⟩ := ha
        cases scan with
        | kids kids => exact absurd rfl (hscan kids)
        | reaped | copyFailed => rfl
    · refine ⟨.scans (k.1+1),
        FamilyRest.enter hr (scanned_succ hscan rfl fun h => absurd h hp)
          (by simp), ?_⟩
      rw [decide_eq_false hp]
      exact .ret ⟨hlt, rfl⟩
  · have hend : k.1 = NPROC := by omega
    rw [hend]
    exact .ret rfl

theorem kwaitSleep_safe (hw : .wait ∈ H) :
    (family strict start).Safe t (H, (.awake, .scans NPROC)) (do
      let stop ← killed t
      if stop then pure (.inr (-1))
      else do
        sleep t (.proc t) .wait
        pure (.inl ()) : KCode (Unit ⊕ Int32)) fun r a =>
      r.elim (fun _ => a = (H, (.awake, .idle))) fun _ => ∃ x, a = (H, (.awake, x)) := by
  have hq : (familyMonitor strict start).Quiet (.scans NPROC) := familyMonitor_quiet trivial
  refine .bind (Monitor.killed_safe hq (by simp)
    (fun c j d hmay => familyMay_of hmay fun k r hk hz => ⟨hk, hz⟩)
    (fun _ _ _ _ _ => .ret ⟨_, rfl⟩) fun d g hr hg hk => ⟨.scans NPROC, hq, ?_, .bind ?_⟩)
  · have hr' : FamilyRest strict start (d.record (.notKilled t)) g :=
      FamilyRest.event hr rfl rfl
    rwa [← hg, update_eq_self]
  · refine (Monitor.sleep_safe (.proc t) familyMonitor_steady familyMonitor_idle
      (fun d g hm hex hr hg => ?_) fun d g H' hr hg => ?_).mono fun _ a ha => .ret ha
    · have hscan := FamilyRest.known hr hg
      refine hm.getReady hex (by rw [sleepOf, hg]; trivial) (by rw [heldOf, hg]; exact hw) ?_
      exact fun c => hscan.2 c c.isLt
    · exact FamilyRest.enter hr trivial (by simp)

theorem kwait_safe (addr : UInt64) : (family strict start).Keeps t (∅, (.awake, .idle))
    (kwait t addr) := by
  have hq : (familyMonitor strict start).Idle .idle := familyMonitor_idle
  refine .bind (hq.lock fun hH => .bind ?_)
  refine (Outline.Safe.loop (fun _ a => a = (insert .wait ∅, (SleepMode.awake, FamilyMode.idle)))
    (Q := fun _ a => ∃ x, a = (insert .wait ∅, (SleepMode.awake, x))) (fun _ a ha => ?_) rfl).mono
    fun r a ha => ?_
  · -- The scan begins with nothing known about the children.
    subst ha
    refine .bind (Monitor.write_safe fun d lock g hm hl hr hg _ => ?_)
    refine ⟨.awake, .scans 0, (family_record hm _).stay hg, ?_,
      .bind ((kwaitScan_safe addr).mono fun scan a ha => ?_)⟩
    · have hr' : FamilyRest strict start (d.record (.tested t (.proc t))) g :=
        FamilyRest.event hr rfl rfl
      exact hr'.enter ⟨Set.mem_insert .., fun c hc => absurd hc (by omega)⟩ (by simp)
    · cases scan with
      | reaped | copyFailed => exact .ret ⟨_, ha⟩
      | kids havekids =>
        obtain rfl : a = (_, (.awake, .scans NPROC)) := ha
        cases havekids with
        | false => exact .ret ⟨_, rfl⟩
        | true => exact kwaitSleep_safe (Set.mem_insert ..)
  · obtain ⟨x, rfl⟩ := ha
    exact .bind (unlock_idle _ hH (.ret rfl))

end Xv6.Threads
