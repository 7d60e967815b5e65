import Xv6.FileSpecs
import Xv6.FileTable

/-! Every reference of an entry is a counted descriptor or belongs to a call in progress, every open
end of a pipe is one entry or one `pipeclose` to come, and each process keeps what its next step
needs. -/
namespace Xv6.FileTable

open scoped BigOperators
open Function

/-- The references of one process to file `f`. -/
@[irreducible] def ProcFiles.refs (x : ProcFiles) (f : Fin NFILE) : ℕ :=
  fdRefs x.counted f+x.point.pending.count f

def File.IsEnd (y : File) (pi : ℕ) (writable : Bool) : Prop :=
  y.type = .FD_PIPE ∧ y.pipe = pi ∧ y.writable = writable

instance (y : File) (pi : ℕ) (writable : Bool) : Decidable (y.IsEnd pi writable) :=
  inferInstanceAs (Decidable (_ ∧ _ ∧ _))

/-- The end that the process is about to close in `pipeclose`. -/
def Point.closes : Point → Option (ℕ × Bool)
  | .pipeclose pi writable _ => some (pi, writable)
  | _ => none

def Point.child : Point → Option (Fin NPROC)
  | .forking np _ => some np
  | .forkDup np _ _ => some np
  | _ => none

def Fresh (s : State) (f : Fin NFILE) : Prop := (s.file f).ref = 1 ∧ (s.file f).type = .FD_NONE

def After.Ok (x : ProcFiles) : After → Prop
  | .ret _ ok => ok = false → x.ofile = x.saved
  | .exit fd => ∀ fd' < fd, x.ofile fd' = none

/-- What a process at each point relies on. -/
def PointOk (s : State) (x : ProcFiles) : Prop :=
  match x.point with
  | .unused => x.ofile = fun _ => none
  | .embryo => True
  | .user ok => ok = false → x.ofile = x.saved
  | .dupped f fd => x.ofile fd = some f ∧ ∃ fd', fd' ≠ fd ∧ x.ofile fd' = some f
  | .opened f => Fresh s f ∧ x.ofile = x.saved
  | .opening f => Fresh s f ∧ ∃ fd, x.ofile fd = some f
  | .piped f0 => Fresh s f0 ∧ x.ofile = x.saved
  | .pipedTwo f0 f1 => (Fresh s f0 ∧ Fresh s f1 ∧ f0 ≠ f1) ∧ x.ofile = x.saved
  | .pipeEnds _ _ => x.ofile = x.saved
  | .pipeFd rf _ fd0 => x.saved fd0 = none ∧ x.ofile = update x.saved fd0 (some rf)
  | .pipeOut rf wf fd0 fd1 =>
    (x.saved fd0 = none ∧ x.saved fd1 = none ∧ fd0 ≠ fd1) ∧
      x.ofile = update (update x.saved fd0 (some rf)) fd1 (some wf)
  | .close f k => k.Ok x ∧ ∀ fd, k = .exit fd → x.ofile fd = some f
  | .pipeclose _ _ k => k.Ok x
  | .forking np fd =>
    (s.proc np).point = .embryo ∧ ∀ fd' : Fin NOFILE, fd ≤ fd' → (s.proc np).ofile fd' = none
  | .forkDup np fd _ =>
    (s.proc np).point = .embryo ∧ ∀ fd' : Fin NOFILE, fd ≤ fd' → (s.proc np).ofile fd' = none
  | .exiting fd => ∀ fd' : Fin NOFILE, fd' < fd → x.ofile fd' = none
  | .exitClear fd => ∀ fd' < fd, x.ofile fd' = none

def endCount (file : Fin NFILE → File) (pi : ℕ) (w : Bool) : ℕ :=
  ∑ f, if (file f).IsEnd pi w then 1 else 0

def closeCount (proc : Fin NPROC → ProcFiles) (pi : ℕ) (w : Bool) : ℕ :=
  ∑ p, if (proc p).point.closes = some (pi, w) then 1 else 0

/-- Every open end of a pipe is one file, or one `pipeclose` to come; a page holds a pipe while an
end is open. -/
structure PipesOk (s : State) : Prop where
  ends (pi : ℕ) (w : Bool) :
    endCount s.file pi w+closeCount s.proc pi w =
      if s.live pi ∧ (s.pipe pi).isOpen w then 1 else 0
  someOpen (pi : ℕ) : s.live pi → ∃ w, (s.pipe pi).isOpen w = true
  freed (pi : ℕ) : s.allocs pi = s.frees pi+(s.live pi).toNat

structure Inv (s : State) : Prop where
  ref (f : Fin NFILE) : (s.file f).ref = ∑ p, (s.proc p).refs f
  zero (f : Fin NFILE) : (s.file f).ref = 0 → (s.file f).type = .FD_NONE
  pipes : PipesOk s
  point (p : Fin NPROC) : PointOk s (s.proc p)
  child (p q np : Fin NPROC) : (s.proc p).point.child = some np →
    (s.proc q).point.child = some np → p = q

/-! ## Counting -/

variable {x : ProcFiles} {fd : Fin NOFILE} {f : Fin NFILE} {s t : State} {p : Fin NPROC}

theorem ProcFiles.counted_eq (h : x.point.uncounted = none) : x.counted = x.ofile := by
  funext fd
  simp [ProcFiles.counted, h]

theorem ProcFiles.counted_clear
    (h : x.point.uncounted = some fd) : x.counted = update x.ofile fd none := by
  funext fd'
  by_cases hfd : fd' = fd
  · subst hfd
    simp [ProcFiles.counted, h]
  · have hne : ¬ fd = fd' := fun h => hfd h.symm
    simp [ProcFiles.counted, h, hfd, hne]

theorem ProcFiles.refs_pos_of_fd (h : x.counted fd = some f) : 0 < x.refs f := by
  unfold ProcFiles.refs
  exact Nat.add_pos_left (fdRefs_pos h) _

theorem ProcFiles.refs_pos_of_pending (h : f ∈ x.point.pending) : 0 < x.refs f := by
  unfold ProcFiles.refs
  exact Nat.add_pos_right _ (List.count_pos_iff.mpr h)

theorem Inv.refs_le (hi : Inv s) (p : Fin NPROC) (f : Fin NFILE) :
    (s.proc p).refs f ≤ (s.file f).ref := by
  rw [hi.ref f]
  exact Finset.single_le_sum (fun q _ => Nat.zero_le ((s.proc q).refs f)) (Finset.mem_univ p)

/-- The one reference of a fresh file excludes every other process. -/
theorem Inv.alone (hi : Inv s) {q : Fin NPROC} (hpq : p ≠ q)
    (hone : (s.file f).ref = 1) (hp : 0 < (s.proc p).refs f) : (s.proc q).refs f = 0 := by
  have hsum := Finset.add_sum_erase Finset.univ (fun r => (s.proc r).refs f) (Finset.mem_univ p)
  have hle := Finset.single_le_sum (fun r _ => Nat.zero_le ((s.proc r).refs f))
    (Finset.mem_erase.mpr ⟨hpq.symm, Finset.mem_univ q⟩)
  have href := hi.ref f
  omega

theorem fdalloc_free {ofile : Fds} (h : fdalloc ofile = some fd) :
    ofile fd = none := by
  simpa using List.find?_some h

theorem filealloc_free {file : Fin NFILE → File} (h : filealloc file = some f) :
    (file f).ref = 0 := by
  simpa using List.find?_some h

/-! ## One process steps -/

/-- A process that stays as it is keeps its facts, when the fresh file it knows is left alone and
no other process touches its child. -/
theorem PointOk.congr (h : PointOk s x)
    (hfile : ∀ f, Fresh s f → 0 < x.refs f → t.file f = s.file f)
    (hchild : ∀ np, x.point.child = some np → t.proc np = s.proc np) : PointOk t x := by
  have hfresh (f : Fin NFILE) (hf : Fresh s f) (hx : 0 < x.refs f) : Fresh t f := by
    unfold Fresh
    rw [hfile f hf hx]
    exact hf
  unfold PointOk at h ⊢
  cases hpt : x.point with
  | opened f | piped f =>
    simp only [hpt] at h ⊢
    exact ⟨hfresh f h.1 (x.refs_pos_of_pending (by simp [hpt, Point.pending])), h.2⟩
  | opening f =>
    simp only [hpt] at h ⊢
    obtain ⟨hf, fd, hfd⟩ := h
    have hc : x.counted fd = some f := by
      rw [x.counted_eq (by simp [hpt, Point.uncounted])]
      exact hfd
    exact ⟨hfresh f hf (x.refs_pos_of_fd hc), fd, hfd⟩
  | pipedTwo f0 f1 =>
    simp only [hpt] at h ⊢
    obtain ⟨⟨h0, h1, hne⟩, hsaved⟩ := h
    have hown0 : 0 < x.refs f0 := x.refs_pos_of_pending (by simp [hpt, Point.pending])
    have hown1 : 0 < x.refs f1 := x.refs_pos_of_pending (by simp [hpt, Point.pending])
    exact ⟨⟨hfresh f0 h0 hown0, hfresh f1 h1 hown1, hne⟩, hsaved⟩
  | forking np | forkDup np =>
    simp only [hpt] at h ⊢
    rw [hchild np (by simp [hpt, Point.child])]
    exact h
  | embryo => trivial
  | _ =>
    simp only [hpt] at h ⊢
    exact h

theorem PointOk.child_embryo (h : PointOk s x) {np : Fin NPROC}
    (hnp : x.point.child = some np) : (s.proc np).point = .embryo := by
  unfold PointOk at h
  cases hpt : x.point with
  | forking | forkDup =>
    simp only [hpt, Point.child, Option.some.injEq] at hnp h
    subst hnp
    exact h.1
  | _ => simp [hpt, Point.child] at hnp

/-- The pipes are as they were when no file starts or stops being an end and no process comes to or
leaves a `pipeclose`. -/
theorem PipesOk.congr (h : PipesOk s)
    (hends : ∀ f pi w, (t.file f).IsEnd pi w ↔ (s.file f).IsEnd pi w)
    (hcloses : ∀ p, (t.proc p).point.closes = (s.proc p).point.closes)
    (hpipe : t.pipe = s.pipe) (hlive : t.live = s.live) (hallocs : t.allocs = s.allocs)
    (hfrees : t.frees = s.frees) : PipesOk t where
  ends pi w := by
    have h := h.ends pi w
    unfold endCount closeCount at h ⊢
    simp only [hends, hcloses, hpipe, hlive]
    exact h
  someOpen pi hl := by
    rw [hlive] at hl
    rw [hpipe]
    exact h.someOpen pi hl
  freed pi := by
    rw [hallocs, hfrees, hlive]
    exact h.freed pi

theorem closes_update (h : x.point.closes = (s.proc p).point.closes) (q : Fin NPROC) :
    (update s.proc p x q).point.closes = (s.proc q).point.closes := by
  by_cases hq : q = p
  · subst hq
    rw [update_self]
    exact h
  · rw [update_of_ne hq]

theorem endCount_update (file : Fin NFILE → File) (f : Fin NFILE) (y : File) (pi : ℕ) (w : Bool) :
    endCount (update file f y) pi w+(if (file f).IsEnd pi w then 1 else 0) =
      endCount file pi w+(if y.IsEnd pi w then 1 else 0) :=
  sum_update_add (fun y : File => if y.IsEnd pi w then 1 else 0) file f y

theorem closeCount_update (proc : Fin NPROC → ProcFiles) (p : Fin NPROC) (x : ProcFiles) (pi : ℕ)
    (w : Bool) :
    closeCount (update proc p x) pi w+ (if (proc p).point.closes = some (pi, w) then 1 else 0) =
      closeCount proc pi w+(if x.point.closes = some (pi, w) then 1 else 0) :=
  sum_update_add (fun x : ProcFiles => if x.point.closes = some (pi, w) then 1 else 0) proc p x

theorem sum_refs_update (proc : Fin NPROC → ProcFiles) (p : Fin NPROC) (x : ProcFiles)
    (f : Fin NFILE) :
    (∑ q, (update proc p x q).refs f)+(proc p).refs f = (∑ q, (proc q).refs f)+x.refs f :=
  sum_update_add (fun y : ProcFiles => y.refs f) proc p x

/-- A step of `p` that changes files that are free or `p`'s, `p` itself and the child it forks. -/
theorem Inv.of_step (hi : Inv s) (hnot : ∀ q, (s.proc q).point.child ≠ some p)
    (hproc : ∀ q, q ≠ p → (s.proc p).point.child ≠ some q → t.proc q = s.proc q)
    (hfile : ∀ f, t.file f = s.file f ∨ (s.file f).ref = 0 ∨ 0 < (s.proc p).refs f)
    (href : ∀ f, (t.file f).ref+(∑ q, (s.proc q).refs f) = (s.file f).ref+∑ q, (t.proc q).refs f)
    (hzero : ∀ f, (t.file f).ref = 0 → (t.file f).type = .FD_NONE)
    (hpipes : PipesOk t) (hpoint : PointOk t (t.proc p))
    (hchild : ∀ c, (s.proc p).point.child = some c →
      PointOk t (t.proc c) ∧ (t.proc c).point.child = none)
    (hnew : ∀ np, (t.proc p).point.child = some np →
      (s.proc p).point.child = some np ∨ ∀ q, (s.proc q).point.child ≠ some np) : Inv t where
  ref f := by
    have hold := hi.ref f
    have h := href f
    omega
  zero := hzero
  pipes := hpipes
  point q := by
    by_cases hq : q = p
    · subst hq
      exact hpoint
    by_cases hqc : (s.proc p).point.child = some q
    · exact (hchild q hqc).1
    rw [hproc q hq hqc]
    apply (hi.point q).congr
    · intro f hf hx
      -- the fresh file of q is neither free nor p's
      have hnone := hi.alone hq hf.1 hx
      have hone := hf.1
      rcases hfile f with h | h | h
      · exact h
      · omega
      · omega
    · intro np hnp
      apply hproc np
      · rintro rfl
        exact hnot q hnp
      · intro hp
        exact hq (hi.child q p np hnp hp)
  child q r np hq hr := by
    -- a process other than p that forks was forking the same child before
    have hold (u : Fin NPROC) (hup : u ≠ p) (hu : (t.proc u).point.child = some np) :
        (s.proc u).point.child = some np := by
      by_cases huc : (s.proc p).point.child = some u
      · rw [(hchild u huc).2] at hu
        cases hu
      · rwa [hproc u hup huc] at hu
    have hboth (u : Fin NPROC) (hup : u ≠ p) (hu : (t.proc u).point.child = some np)
        (hpn : (t.proc p).point.child = some np) : False := by
      rcases hnew np hpn with h | h
      · exact hup (hi.child u p np (hold u hup hu) h)
      · exact h u (hold u hup hu)
    by_cases hqp : q = p
    · by_cases hrp : r = p
      · rw [hqp, hrp]
      · subst hqp
        exact (hboth r hrp hr hq).elim
    · by_cases hrp : r = p
      · subst hrp
        exact (hboth q hqp hq hr).elim
      · exact hi.child q r np (hold q hqp hq) (hold r hrp hr)

theorem Inv.not_child (hi : Inv s)
    (hembryo : (s.proc p).point ≠ .embryo) (q : Fin NPROC) : (s.proc q).point.child ≠ some p :=
  fun h => hembryo ((hi.point q).child_embryo h)

/-- A step of `p` that only replaces `p` itself and files that are free or `p`'s. -/
theorem Inv.step (hi : Inv s) (hnot : ∀ q, (s.proc q).point.child ≠ some p)
    (hproc : t.proc = update s.proc p x)
    (hfile : ∀ f, t.file f = s.file f ∨ (s.file f).ref = 0 ∨ 0 < (s.proc p).refs f)
    (href : ∀ f, (t.file f).ref+(s.proc p).refs f = (s.file f).ref+x.refs f)
    (hzero : ∀ f, (t.file f).ref = 0 → (t.file f).type = .FD_NONE)
    (hpipes : PipesOk t) (hpoint : PointOk t x)
    (hnew : ∀ np, x.point.child = some np →
      (s.proc p).point.child = some np ∨ ∀ q, (s.proc q).point.child ≠ some np) : Inv t := by
  have hp : t.proc p = x := by rw [hproc, update_self]
  have hother (q : Fin NPROC) (hq : q ≠ p) : t.proc q = s.proc q := by
    rw [hproc, update_of_ne hq]
  apply hi.of_step hnot (fun q hq _ => hother q hq) hfile _ hzero hpipes (hp ▸ hpoint)
  · intro c hc
    have hcp : c ≠ p := by
      rintro rfl
      exact hnot c hc
    rw [hother c hcp]
    have hembryo := (hi.point p).child_embryo hc
    constructor
    · unfold PointOk
      simp only [hembryo]
    · rw [hembryo]
      rfl
  · rw [hp]
    exact hnew
  · intro f
    have hsum := sum_refs_update s.proc p x f
    have h := href f
    rw [hproc]
    omega

theorem Inv.move (hi : Inv s) (hembryo : (s.proc p).point ≠ .embryo)
    (hrefs : ∀ f, x.refs f = (s.proc p).refs f)
    (hcloses : x.point.closes = (s.proc p).point.closes)
    (hnew : ∀ np, x.point.child = some np →
      (s.proc p).point.child = some np ∨ ∀ q, (s.proc q).point.child ≠ some np)
    (hpoint : PointOk s x) : Inv (s.setProc p x) := by
  apply hi.step (hi.not_child hembryo) rfl
  · intro f
    exact .inl rfl
  · intro f
    change (s.file f).ref+_ = (s.file f).ref+_
    rw [hrefs f]
  · exact hi.zero
  · apply hi.pipes.congr
    · intro f pi w
      exact Iff.rfl
    · exact closes_update hcloses
    all_goals rfl
  · apply hpoint.congr
    · intro f _ _
      rfl
    · intro np hc
      have hne : np ≠ p := by
        rintro rfl
        exact hembryo (hpoint.child_embryo hc)
      exact update_of_ne hne x s.proc
  · exact hnew

end Xv6.FileTable
