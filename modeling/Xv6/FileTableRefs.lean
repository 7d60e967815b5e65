import Xv6.FileTablePipes

/-! Each step of each system call keeps the counts of the open-file table. -/
namespace Xv6.FileTable

open scoped BigOperators
open Function

variable {s : State} {p : Fin NPROC}

/-! ## Forking and exiting -/

variable {fd : ℕ} {np : Fin NPROC}

theorem Inv.go_forking_skip (hi : Inv s)
    (hpt : (s.proc p).point = .forking np fd) : Inv (s.setPoint p (.forking np (fd+1))) := by
  obtain ⟨hnp, hnone⟩ := hi.pointOk hpt
  exact hi.go_counted hpt (by simp) ⟨rfl, rfl⟩ (fun _ => rfl) rfl (.inr rfl)
    ⟨hnp, fun fd' h => hnone fd' (by omega)⟩

theorem Inv.go_forking_dup (hi : Inv s) {fd : Fin NOFILE} {f : Fin NFILE}
    (hpt : (s.proc p).point = .forking np fd) (hfd : (s.proc p).ofile fd = some f) :
    Good (s.filedup p f (.forkDup np fd f)) := by
  obtain ⟨hnp, hnone⟩ := hi.pointOk hpt
  apply hi.go_filedup hpt
  · simp
  · apply ProcFiles.refs_pos_of_fd
    rw [ProcFiles.counted_eq (by rw [hpt]; rfl)]
    exact hfd
  · intro g
    rw [ProcFiles.refs_eq rfl rfl, ProcFiles.refs_eq hpt rfl]
    simp only [Point.pending, List.count_nil, Nat.add_zero]
  · rfl
  · intro m h
    exact h
  · exact ⟨hnp, hnone⟩

/-- Two processes change: their references are what they were together. -/
theorem sum_refs_update_two (proc : Fin NPROC → ProcFiles) {q : Fin NPROC} (hpq : p ≠ q)
    (x y : ProcFiles) (f : Fin NFILE) (h : x.refs f+y.refs f = (proc p).refs f+(proc q).refs f) :
    (∑ r, (update (update proc q y) p x r).refs f) = ∑ r, (proc r).refs f := by
  have hq := sum_refs_update proc q y f
  have hp := sum_refs_update (update proc q y) p x f
  rw [update_of_ne hpq] at hp
  omega

theorem Inv.child_ne (hi : Inv s) {pt : Point} (hpt : (s.proc p).point = pt)
    (hembryo : pt ≠ .embryo) (hnp : pt.child = some np) : p ≠ np := by
  rintro rfl
  rw [← hpt] at hnp hembryo
  exact hembryo ((hi.point p).child_embryo hnp)

theorem Inv.go_child (hi : Inv s) {pt : Point} (hpt : (s.proc p).point = pt)
    (hembryo : pt ≠ .embryo) (hnp : pt.child = some np) {x y : ProcFiles}
    (hrefs : ∀ f, x.refs f+y.refs f = (s.proc p).refs f+(s.proc np).refs f)
    (hcloses : pt.closes = none ∧ x.point.closes = none ∧ y.point.closes = none)
    (hx : PointOk ((s.setProc np y).setProc p x) x)
    (hy : PointOk ((s.setProc np y).setProc p x) y)
    (hxchild : x.point.child = none ∨ x.point.child = some np) (hychild : y.point.child = none) :
    Inv ((s.setProc np y).setProc p x) := by
  have hchild : (s.proc p).point.child = some np := by
    rw [hpt]
    exact hnp
  have hemb := (hi.point p).child_embryo hchild
  have hne := hi.child_ne hpt hembryo hnp
  have hp : ((s.setProc np y).setProc p x).proc p = x := State.setProc_self _ p x
  have hc : ((s.setProc np y).setProc p x).proc np = y := by
    rw [State.setProc_of_ne _ hne.symm, State.setProc_self]
  have hother (q : Fin NPROC) (hq : q ≠ p) (hqn : q ≠ np) :
      ((s.setProc np y).setProc p x).proc q = s.proc q := by
    rw [State.setProc_of_ne _ hq, State.setProc_of_ne _ hqn]
  apply hi.of_step (p := p)
  · apply hi.not_child
    rw [hpt]
    exact hembryo
  · intro q hq hqc
    apply hother q hq
    rintro rfl
    exact hqc hchild
  · intro f
    exact .inl rfl
  · intro f
    change (s.file f).ref+_ = (s.file f).ref+∑ q, (update (update s.proc np y) p x q).refs f
    rw [sum_refs_update_two s.proc hne x y f (hrefs f)]
  · exact hi.zero
  · apply hi.pipes.congr
    · intro f pi w
      exact Iff.rfl
    · intro q
      by_cases hq : q = p
      · subst hq
        rw [hp, hpt, hcloses.1, hcloses.2.1]
      · by_cases hqn : q = np
        · subst hqn
          rw [hc, hemb, hcloses.2.2]
          rfl
        · rw [hother q hq hqn]
    all_goals rfl
  · rw [hp]
    exact hx
  · intro c hcc
    rw [hchild] at hcc
    cases hcc
    rw [hc]
    exact ⟨hy, hychild⟩
  · intro m hm
    rw [hp] at hm
    rcases hxchild with h | h
    · rw [h] at hm
      cases hm
    · rw [h] at hm
      cases hm
      exact .inl hchild

theorem Inv.go_forked (hi : Inv s) (hpt : (s.proc p).point = .forking np fd) :
    Inv ((s.setPoint np (.user true)).setPoint p (.user true)) := by
  have hne := hi.child_ne hpt (by simp) rfl
  have hemb : (s.proc np).point = .embryo := (hi.pointOk hpt).1
  have heq : (s.setPoint np (.user true)).proc p = s.proc p := State.setProc_of_ne s hne _
  change Inv ((s.setPoint np (.user true)).setProc p
    { (s.setPoint np (.user true)).proc p with point := .user true })
  rw [heq]
  apply hi.go_child hpt (by simp) rfl
  · intro f
    rw [ProcFiles.refs_eq rfl rfl, ProcFiles.refs_eq rfl rfl, ProcFiles.refs_eq hpt rfl,
      ProcFiles.refs_eq hemb rfl]
    rfl
  · exact ⟨rfl, rfl, rfl⟩
  · intro h
    cases h
  · intro h
    cases h
  · exact .inl rfl
  · rfl

/-- The duplicated file goes from the call in progress to the child's table. -/
theorem Inv.go_forkDup (hi : Inv s) {fd : Fin NOFILE} {f : Fin NFILE}
    (hpt : (s.proc p).point = .forkDup np fd f) :
    Inv ((s.setFds np (update (s.proc np).ofile fd (some f))
      (s.proc np).point).setPoint p (.forking np (fd+1))) := by
  have hne := hi.child_ne hpt (by simp) rfl
  obtain ⟨hemb, hnone⟩ := hi.pointOk hpt
  have heq : (s.setFds np (update (s.proc np).ofile fd (some f))
      (s.proc np).point).proc p = s.proc p := State.setProc_of_ne s hne _
  unfold State.setPoint
  rw [heq, hemb]
  apply hi.go_child hpt (by simp) rfl
  · intro g
    have hfill := fdRefs_fill f g (hnone fd le_rfl)
    rw [ProcFiles.refs_eq rfl rfl, ProcFiles.refs_eq rfl rfl, ProcFiles.refs_eq hpt rfl,
      ProcFiles.refs_eq hemb rfl]
    simp only [Point.pending, List.count_nil, Nat.add_zero]
    omega
  · exact ⟨rfl, rfl, rfl⟩
  · have hc : (((s.setProc np ⟨update (s.proc np).ofile fd (some f), .embryo,
        (s.proc np).saved⟩).setProc p ⟨(s.proc p).ofile, .forking np (fd+1),
          (s.proc p).saved⟩).proc np) = ⟨update (s.proc np).ofile fd (some f), .embryo,
            (s.proc np).saved⟩ := by
      rw [State.setProc_of_ne _ hne.symm, State.setProc_self]
    constructor
    · exact congrArg ProcFiles.point hc
    · intro fd' h
      have hfd : fd' ≠ fd := by
        rintro rfl
        omega
      refine (congrFun (congrArg ProcFiles.ofile hc) fd').trans ?_
      change update (s.proc np).ofile fd (some f) fd' = none
      rw [update_of_ne hfd]
      exact hnone fd' (by omega)
  · trivial
  · exact .inr rfl
  · rfl

theorem Inv.go_exiting (hi : Inv s) (hpt : (s.proc p).point = .exiting fd) :
    (NOFILE ≤ fd → Inv (s.setPoint p .unused)) ∧
    ∀ h : fd < NOFILE, ((s.proc p).ofile ⟨fd, h⟩ = none → Inv (s.setPoint p (.exiting (fd+1)))) ∧
      ∀ f, (s.proc p).ofile ⟨fd, h⟩ = some f → Inv (s.setPoint p (.close f (.exit ⟨fd, h⟩))) := by
  have hbelow := hi.pointOk hpt
  constructor
  · intro hle
    refine hi.go_counted hpt (by simp) ⟨rfl, rfl⟩ (fun _ => rfl) rfl (.inl rfl) ?_
    funext fd'
    exact hbelow fd' (lt_of_lt_of_le fd'.isLt hle)
  · intro hlt
    constructor
    · intro hnone
      refine hi.go_counted hpt (by simp) ⟨rfl, rfl⟩ (fun _ => rfl) rfl (.inl rfl) ?_
      intro fd' h
      rcases Nat.lt_succ_iff_lt_or_eq.mp h with h | h
      · exact hbelow fd' h
      · have heq : fd' = ⟨fd, hlt⟩ := Fin.ext h
        rw [heq]
        exact hnone
    · intro f hf
      refine hi.go_counted hpt (by simp) ⟨rfl, rfl⟩ (fun _ => rfl) rfl (.inl rfl) ?_
      constructor
      · intro fd' h
        exact hbelow fd' h
      · intro fd' h
        cases h
        exact hf

theorem Inv.go_exitClear (hi : Inv s) {fd : Fin NOFILE} (hpt : (s.proc p).point = .exitClear fd) :
    Inv (s.setFds p (update (s.proc p).ofile fd none) (.exiting (fd+1))) := by
  have hbelow := hi.pointOk hpt
  apply hi.go_move hpt (by simp)
  · intro g
    rw [ProcFiles.refs_eq rfl rfl, ProcFiles.refs_uncounted hpt rfl]
    rfl
  · rfl
  · exact .inl rfl
  · intro fd' h
    by_cases heq : fd' = fd
    · subst heq
      exact update_self fd' _ _
    · have hlt : fd' < fd := by
        exact Fin.lt_def.mpr (by omega)
      change update (s.proc p).ofile fd none fd' = none
      rw [update_of_ne heq]
      exact hbelow fd' hlt

/-! ## Whole runs -/

theorem Inv.go_good (hi : Inv s) (p : Fin NPROC) (c : Choice) : Good (s.go p c) := by
  unfold State.go
  dsimp only
  cases hpt : (s.proc p).point with
  | unused | embryo | user => exact hi
  | dupped f fd => exact hi.go_dupped hpt
  | opened f =>
    cases hfd : fdalloc (s.proc p).ofile with
    | none => exact (hi.go_opened hpt).1 hfd
    | some fd => exact (hi.go_opened hpt).2 fd hfd
  | opening f =>
    apply hi.go_opening hpt
    · rfl
    · split <;> simp
  | piped f0 =>
    cases hf : filealloc s.file with
    | none => exact (hi.go_piped hpt).1 hf
    | some f1 => exact (hi.go_piped hpt).2 f1 hf
  | pipedTwo f0 f1 =>
    dsimp only
    split_ifs with hok
    · exact hi.go_pipealloc hpt hok.2
    · exact hi.go_pipedTwo_fail hpt
  | pipeEnds rf wf =>
    cases hfd : fdalloc (s.proc p).ofile with
    | none => exact (hi.go_pipeEnds hpt).1 hfd
    | some fd => exact (hi.go_pipeEnds hpt).2 fd hfd
  | pipeFd rf wf fd0 =>
    cases hfd : fdalloc (s.proc p).ofile with
    | none => exact (hi.go_pipeFd hpt).1 hfd
    | some fd => exact (hi.go_pipeFd hpt).2 fd hfd
  | pipeOut rf wf fd0 fd1 =>
    dsimp only
    split_ifs with hok
    · exact (hi.go_pipeOut hpt).1
    · exact (hi.go_pipeOut hpt).2
  | close f k => exact hi.go_close hpt
  | pipeclose pi w k => exact hi.go_pipeclose hpt
  | forking np fd =>
    dsimp only
    split_ifs with h
    · cases hfd : (s.proc p).ofile ⟨fd, h⟩ with
      | none => exact hi.go_forking_skip hpt
      | some f => exact hi.go_forking_dup hpt hfd
    · exact hi.go_forked hpt
  | forkDup np fd f => exact hi.go_forkDup hpt
  | exiting fd =>
    dsimp only
    split_ifs with h
    · cases hfd : (s.proc p).ofile ⟨fd, h⟩ with
      | none => exact ((hi.go_exiting hpt).2 h).1 hfd
      | some f => exact ((hi.go_exiting hpt).2 h).2 f hfd
    · exact (hi.go_exiting hpt).1 (by omega)
  | exitClear fd => exact hi.go_exitClear hpt

theorem Inv.step_good (hi : Inv s) (e : Event) : Good (s.step e) := by
  cases e with
  | call p c =>
    simp only [State.step]
    cases hpt : (s.proc p).point with
    | user ok => exact hi.enter_good hpt c
    | _ => exact hi
  | go p c => exact hi.go_good p c

theorem Inv.run_good (hi : Inv s) (es : List Event) : Good (s.run es) := by
  induction es generalizing s with
  | nil => exact hi
  | cons e es ih =>
    have hstep := hi.step_good e
    unfold State.run
    cases hs : s.step e with
    | error m =>
      rw [hs] at hstep
      exact hstep
    | ok t =>
      rw [hs] at hstep
      exact ih hstep

theorem boot_point (p : Fin NPROC) : ∃ pt, (boot.proc p).point = pt ∧ pt.uncounted = none ∧
    pt.pending = [] ∧ pt.closes = none ∧ pt.child = none ∧ PointOk boot { boot.proc p with point := pt } := by
  unfold boot
  dsimp only
  split
  · exact ⟨_, rfl, rfl, rfl, rfl, rfl, Bool.noConfusion⟩
  · exact ⟨_, rfl, rfl, rfl, rfl, rfl, rfl⟩

theorem inv_boot : Inv boot where
  ref f := by
    symm
    apply Finset.sum_eq_zero
    intro p _
    have hnone : fdRefs (boot.proc p).ofile f = 0 := Finset.sum_eq_zero fun _ _ => rfl
    obtain ⟨pt, h, hu, hpending, -⟩ := boot_point p
    rw [ProcFiles.refs_eq h hu, hnone, hpending]
    rfl
  zero f _ := rfl
  pipes := by
    constructor
    · intro pi w
      have hends : endCount boot.file pi w = 0 :=
        Finset.sum_eq_zero fun f _ => if_neg (by simp [File.IsEnd, boot])
      have hcloses : closeCount boot.proc pi w = 0 := by
        apply Finset.sum_eq_zero
        intro p _
        obtain ⟨pt, h, -, -, hcloses, -⟩ := boot_point p
        exact if_neg (by simp [h, hcloses])
      rw [hends, hcloses]
      rfl
    · intro pi h
      cases h
    · intro pi
      rfl
  point p := by
    obtain ⟨pt, rfl, -, -, -, -, hok⟩ := boot_point p
    exact hok
  child p q np h := by
    obtain ⟨pt, hpt, -, -, -, hchild, -⟩ := boot_point p
    rw [hpt, hchild] at h
    cases h

def Held (s : State) (f : Fin NFILE) : Prop :=
  (∃ p fd, (s.proc p).counted fd = some f) ∨ ∃ p, f ∈ (s.proc p).point.pending

/-- A file that is in use is the end `w` of pipe `pi`, or a call in progress is about to close
that end. -/
def EndInUse (s : State) (pi : ℕ) (w : Bool) : Prop :=
  (∃ f, (s.file f).IsEnd pi w ∧ Held s f) ∨ ∃ p k, (s.proc p).point = .pipeclose pi w k

/-- The counts of the open-file table between any two steps. -/
structure FilesOk (s : State) : Prop where
  /-- every reference is a counted descriptor or one of a call in progress -/
  ref (f : Fin NFILE) : (s.file f).ref =
    (∑ p, fdRefs (s.proc p).counted f)+∑ p, (s.proc p).point.pending.count f
  free (f : Fin NFILE) : (s.file f).ref = 0 →
    (s.file f).type = .FD_NONE ∧ ∀ p fd, (s.proc p).counted fd ≠ some f
  isOpen (pi : ℕ) (w : Bool) : s.live pi = true → ((s.pipe pi).isOpen w = true ↔ EndInUse s pi w)
  /-- the page of a pipe is kept exactly as long as one of its ends is in use -/
  live (pi : ℕ) : s.live pi = true ↔ ∃ w, EndInUse s pi w
  /-- and is freed once for each time it was allocated -/
  once (pi : ℕ) : s.allocs pi = s.frees pi+(s.live pi).toNat
  failed (p : Fin NPROC) : (s.proc p).point = .user false → (s.proc p).ofile = (s.proc p).saved

theorem Inv.held_iff (hi : Inv s) (f : Fin NFILE) : Held s f ↔ 0 < (s.file f).ref := by
  constructor
  · rintro (⟨p, fd, h⟩ | ⟨p, h⟩)
    · exact lt_of_lt_of_le (ProcFiles.refs_pos_of_fd h) (hi.refs_le p f)
    · exact lt_of_lt_of_le (ProcFiles.refs_pos_of_pending h) (hi.refs_le p f)
  · intro hpos
    rw [hi.ref f] at hpos
    obtain ⟨p, -, hp⟩ := Finset.exists_ne_zero_of_sum_ne_zero hpos.ne'
    unfold ProcFiles.refs at hp
    by_cases hcount : (s.proc p).point.pending.count f = 0
    · have hfd : fdRefs (s.proc p).counted f ≠ 0 := by omega
      obtain ⟨fd, -, hfd⟩ := Finset.exists_ne_zero_of_sum_ne_zero hfd
      by_cases h : (s.proc p).counted fd = some f
      · exact .inl ⟨p, fd, h⟩
      · exact absurd (if_neg h) hfd
    · exact .inr ⟨p, List.count_pos_iff.mp (Nat.pos_of_ne_zero hcount)⟩

theorem Inv.endInUse_iff (hi : Inv s) (pi : ℕ) (w : Bool) :
    EndInUse s pi w ↔ s.live pi = true ∧ (s.pipe pi).isOpen w = true := by
  have hends := hi.pipes.ends pi w
  constructor
  · rintro (⟨f, hend, -⟩ | ⟨p, k, hpt⟩)
    · have hle := Finset.single_le_sum (s := Finset.univ)
        (f := fun g => if (s.file g).IsEnd pi w then 1 else 0)
        (fun g _ => Nat.zero_le _) (Finset.mem_univ f)
      rw [if_pos hend] at hle
      change 1 ≤ endCount s.file pi w at hle
      by_contra hnot
      rw [if_neg hnot] at hends
      omega
    · obtain ⟨hlive, hopen, -⟩ := hi.pipes.closing hpt
      exact ⟨hlive, hopen⟩
  · intro h
    rw [if_pos h] at hends
    by_cases hclose : closeCount s.proc pi w = 0
    · have hne : endCount s.file pi w ≠ 0 := by omega
      obtain ⟨f, -, hf⟩ := Finset.exists_ne_zero_of_sum_ne_zero hne
      have hend : (s.file f).IsEnd pi w := by
        by_contra hnot
        exact hf (if_neg hnot)
      refine .inl ⟨f, hend, (hi.held_iff f).mpr ?_⟩
      by_contra hzero
      have htype := hi.zero f (by omega)
      rw [hend.1] at htype
      cases htype
    · obtain ⟨p, -, hp⟩ := Finset.exists_ne_zero_of_sum_ne_zero hclose
      have hpt : (s.proc p).point.closes = some (pi, w) := by
        by_contra hnot
        exact hp (if_neg hnot)
      refine .inr ⟨p, ?_⟩
      cases h : (s.proc p).point with
      | pipeclose pi' w' k =>
        rw [h] at hpt
        cases hpt
        exact ⟨k, rfl⟩
      | _ => simp [h, Point.closes] at hpt

theorem Inv.filesOk (hi : Inv s) : FilesOk s where
  ref f := by
    rw [hi.ref f, ← Finset.sum_add_distrib]
    unfold ProcFiles.refs
    rfl
  free f hf := by
    refine ⟨hi.zero f hf, ?_⟩
    intro p fd h
    have hpos := (hi.held_iff f).mp (.inl ⟨p, fd, h⟩)
    omega
  isOpen pi w hl := by
    rw [hi.endInUse_iff]
    exact ⟨fun h => ⟨hl, h⟩, fun h => h.2⟩
  live pi := by
    constructor
    · intro hl
      obtain ⟨w, hw⟩ := hi.pipes.someOpen pi hl
      exact ⟨w, (hi.endInUse_iff pi w).mpr ⟨hl, hw⟩⟩
    · rintro ⟨w, hw⟩
      exact ((hi.endInUse_iff pi w).mp hw).1
  once := hi.pipes.freed
  failed p hpt := hi.pointOk hpt rfl

/-- In every interleaving of `open`, `dup`, `close`, `pipe`, `fork`, `exec` and `exit` the counts of
the open-file table are right after each step; nothing panics, except that `init` must not exit. -/
theorem file_refs (es : List Event) :
    boot.run es = .error "init exiting" ∨ ∃ s, boot.run es = .ok s ∧ FilesOk s := by
  have h := inv_boot.run_good es
  cases hr : boot.run es with
  | error e =>
    rw [hr] at h
    exact .inl (congrArg Except.error h)
  | ok s =>
    rw [hr] at h
    exact .inr ⟨s, rfl, Inv.filesOk h⟩

/-! ## Descriptors that do not count -/

def shows (es : List Event) (look : State → Bool) : Bool :=
  match boot.run es with
  | .ok s => look s
  | .error _ => false

theorem of_shows {es : List Event} {look : State → Bool} (h : shows es look = true) :
    ∃ s, boot.run es = .ok s ∧ look s = true := by
  unfold shows at h
  cases hr : boot.run es with
  | ok s =>
    rw [hr] at h
    exact ⟨s, rfl, h⟩
  | error e =>
    rw [hr] at h
    cases h

def next (p : Fin NPROC) : Event := .go p ⟨true, 0, false, true, false⟩

def exitRun : List Event :=
  [.call 0 (.fork 1)] ++ List.replicate (NOFILE+1) (next 0) ++
  [.call 1 .open, next 1, next 1, .call 1 .exit, next 1, next 1]

def dupRun : List Event := [.call 0 .open, next 0, next 0, .call 0 (.dup 0)]

/-- In `kexit` a descriptor still holds an entry with `ref == 0`, and in `sys_dup` an entry with
`ref == 1` stands in two descriptors while no call in progress refers to it. -/
theorem uncounted_descriptors :
    (∃ s, boot.run exitRun = .ok s ∧ (s.file 0).ref = 0 ∧ (s.proc 1).ofile 0 = some 0) ∧
    ∃ s, boot.run dupRun = .ok s ∧ (s.file 0).ref = 1 ∧
      (s.proc 0).ofile 0 = some 0 ∧ (s.proc 0).ofile 1 = some 0 := by
  have hexit : shows exitRun (fun s => decide ((s.file 0).ref = 0 ∧
      (s.proc 1).ofile 0 = some 0)) = true := by decide +kernel
  have hdup : shows dupRun (fun s => decide ((s.file 0).ref = 1 ∧
      (s.proc 0).ofile 0 = some 0 ∧ (s.proc 0).ofile 1 = some 0)) = true := by decide +kernel
  obtain ⟨s, hs, hlook⟩ := of_shows hexit
  obtain ⟨t, ht, hlook'⟩ := of_shows hdup
  exact ⟨⟨s, hs, of_decide_eq_true hlook⟩, t, ht, of_decide_eq_true hlook'⟩

end Xv6.FileTable
