import Xv6.FileTableInvariant

/-! The steps that start a system call, and those that allocate, install and duplicate, keep the
counts of the open-file table. -/
namespace Xv6.FileTable

open scoped BigOperators
open Function

def Good : Except String State → Prop
  | .ok s => Inv s
  | .error e => e = "init exiting"

variable {pt : Point} {x : ProcFiles} {fd : Fin NOFILE} {f rf wf : Fin NFILE}

theorem ProcFiles.refs_eq (h : x.point = pt) (hu : pt.uncounted = none) (g : Fin NFILE) :
    x.refs g = fdRefs x.ofile g+pt.pending.count g := by
  subst h
  unfold ProcFiles.refs
  rw [x.counted_eq hu]

theorem ProcFiles.refs_uncounted (h : x.point = pt) (hu : pt.uncounted = some fd) (g : Fin NFILE) :
    x.refs g = fdRefs (update x.ofile fd none) g+pt.pending.count g := by
  subst h
  unfold ProcFiles.refs
  rw [x.counted_clear hu]

variable {p : Fin NPROC}

section
variable (s : State)

section
variable (p : Fin NPROC) (x : ProcFiles)

@[simp] theorem State.setProc_setPoint (pt : Point) :
    (s.setProc p x).setPoint p pt = s.setProc p { x with point := pt } := by
  simp [State.setPoint, State.setProc]

@[simp] theorem State.setProc_setFds (fds : Fds) (pt : Point) :
    (s.setProc p x).setFds p fds pt = s.setProc p { x with ofile := fds, point := pt } := by
  simp [State.setFds, State.setProc]

@[simp] theorem State.setProc_self : (s.setProc p x).proc p = x := by
  simp [State.setProc]

end

theorem State.setProc_of_ne {q : Fin NPROC} (h : q ≠ p) (x : ProcFiles) :
    (s.setProc p x).proc q = s.proc q := by
  simp [State.setProc, h]

theorem State.setProc_comm {q : Fin NPROC} (h : p ≠ q) (x y : ProcFiles) :
    (s.setProc p x).setProc q y = (s.setProc q y).setProc p x := by
  unfold State.setProc
  simp only [update_comm h x y s.proc]

@[simp] theorem State.setProc_setProc (p : Fin NPROC) (x y : ProcFiles) :
    (s.setProc p x).setProc p y = s.setProc p y := by
  simp [State.setProc]

@[simp] theorem State.setProc_file (p : Fin NPROC) (x : ProcFiles) :
    (s.setProc p x).file = s.file := rfl

@[simp] theorem State.setProc_setRef (p : Fin NPROC) (x : ProcFiles) (f : Fin NFILE)
    (n : ℕ) : (s.setProc p x).setRef f n = (s.setRef f n).setProc p x := rfl

theorem State.setRef_self (f : Fin NFILE) (n : ℕ) :
    (s.setRef f n).file f = { s.file f with ref := n } :=
  update_self f _ s.file

theorem State.setRef_ref (f g : Fin NFILE) (n : ℕ) :
    ((s.setRef f n).file g).ref = if g = f then n else (s.file g).ref := by
  by_cases hg : g = f
  · subst hg
    rw [if_pos rfl, s.setRef_self]
  · rw [if_neg hg]
    exact congrArg File.ref (update_of_ne hg _ s.file)

theorem State.setRef_type (f g : Fin NFILE) (n : ℕ) :
    ((s.setRef f n).file g).type = (s.file g).type := by
  by_cases hg : g = f
  · subst hg
    rw [s.setRef_self]
  · exact congrArg File.type (update_of_ne hg _ s.file)

theorem State.setRef_isEnd (f g : Fin NFILE) (n pi : ℕ) (w : Bool) :
    ((s.setRef f n).file g).IsEnd pi w ↔ (s.file g).IsEnd pi w := by
  by_cases hg : g = f
  · subst hg
    rw [s.setRef_self]
    exact Iff.rfl
  · have h : (s.setRef f n).file g = s.file g := update_of_ne hg _ s.file
    rw [h]

end

theorem Inv.recount {s : State} (hi : Inv s) {n : ℕ} (hembryo : (s.proc p).point ≠ .embryo)
    (hown : (s.file f).ref = 0 ∨ 0 < (s.proc p).refs f) (hpos : 0 < n)
    (href : ∀ g, (if g = f then n else (s.file g).ref)+(s.proc p).refs g = (s.file g).ref+x.refs g)
    (hcloses : x.point.closes = (s.proc p).point.closes)
    (hchild : ∀ np, x.point.child = some np → (s.proc p).point.child = some np)
    (hpoint : PointOk (s.setRef f n) x) : Inv ((s.setRef f n).setProc p x) := by
  apply hi.step (hi.not_child hembryo) rfl
  · intro g
    by_cases hg : g = f
    · subst hg
      exact .inr hown
    · exact .inl (update_of_ne hg _ s.file)
  · intro g
    have h := href g
    rw [← s.setRef_ref f g n] at h
    exact h
  · intro g hg
    change ((s.setRef f n).file g).ref = 0 at hg
    change ((s.setRef f n).file g).type = _
    rw [s.setRef_type]
    rw [s.setRef_ref] at hg
    split_ifs at hg with hgf
    · omega
    · exact hi.zero g hg
  · apply hi.pipes.congr
    · intro g pi w
      exact s.setRef_isEnd f g n pi w
    · exact closes_update hcloses
    all_goals rfl
  · apply hpoint.congr
    · intro g _ _
      rfl
    · intro np hc
      have hne : np ≠ p := by
        rintro rfl
        exact hembryo (hpoint.child_embryo hc)
      exact update_of_ne hne x s.proc
  · intro np hc
    exact .inl (hchild np hc)

theorem Inv.gain {s : State} (hi : Inv s) {n : ℕ} (hembryo : (s.proc p).point ≠ .embryo)
    (hown : (s.file f).ref = 0 ∨ 0 < (s.proc p).refs f) (hn : n = (s.file f).ref+1)
    (hrefs : ∀ g, x.refs g = (s.proc p).refs g+[f].count g)
    (hcloses : x.point.closes = (s.proc p).point.closes)
    (hchild : ∀ np, x.point.child = some np → (s.proc p).point.child = some np)
    (hpoint : PointOk (s.setRef f n) x) : Inv ((s.setRef f n).setProc p x) := by
  apply hi.recount hembryo hown (by omega) _ hcloses hchild hpoint
  intro g
  have hg := hrefs g
  by_cases h : g = f
  · subst h
    rw [List.count_singleton_self] at hg
    rw [if_pos rfl]
    omega
  · have hne : ¬ f = g := fun hf => h hf.symm
    rw [List.count_singleton, beq_iff_eq.not.mpr hne |> Bool.eq_false_iff.mpr] at hg
    rw [if_neg h, hg]
    simp

/-! ## Entering a system call -/

variable {s : State} {p : Fin NPROC}

section
variable (hi : Inv s) {ok : Bool} (hpt : (s.proc p).point = .user ok)
include hi hpt

theorem Inv.enter_move {fds : Fds} {saved : Fds}
    (hrefs : ∀ g, ProcFiles.refs ⟨fds, pt, saved⟩ g = fdRefs (s.proc p).ofile g)
    (hcloses : pt.closes = none) (hchild : pt.child = none)
    (hpoint : PointOk s ⟨fds, pt, saved⟩) : Inv (s.setProc p ⟨fds, pt, saved⟩) := by
  apply hi.move
  · rw [hpt]
    simp
  · intro g
    rw [hrefs g, ProcFiles.refs_eq hpt rfl]
    simp only [Point.pending, List.count_nil, Nat.add_zero]
  · rw [hpt]
    exact hcloses
  · intro np h
    rw [hchild] at h
    cases h
  · exact hpoint

theorem Inv.enter_point (hplain : pt.uncounted = none ∧ pt.pending = [] ∧ pt.closes = none)
    (hchild : pt.child = none) (hpoint : PointOk s ⟨(s.proc p).ofile, pt, (s.proc p).ofile⟩) :
    Inv (s.setProc p ⟨(s.proc p).ofile, pt, (s.proc p).ofile⟩) := by
  refine hi.enter_move hpt (fun g => ?_) hplain.2.2 hchild hpoint
  rw [ProcFiles.refs_eq rfl hplain.1, hplain.2.1]
  exact Nat.add_zero _

theorem Inv.enter_fail : Inv (s.setProc p ⟨(s.proc p).ofile, .user false, (s.proc p).ofile⟩) :=
  hi.enter_point hpt ⟨rfl, rfl, rfl⟩ rfl fun _ => rfl

theorem Inv.enter_filealloc (hf : (s.file f).ref = 0) (hpt' : pt = .opened f ∨ pt = .piped f) :
    Inv ((s.setRef f 1).setProc p ⟨(s.proc p).ofile, pt, (s.proc p).ofile⟩) := by
  have hfresh : Fresh (s.setRef f 1) f := by
    unfold Fresh
    rw [s.setRef_self]
    exact ⟨rfl, hi.zero f hf⟩
  have hpending : pt.pending = [f] ∧ pt.uncounted = none ∧ pt.closes = none ∧ pt.child = none := by
    rcases hpt' with rfl | rfl <;> exact ⟨rfl, rfl, rfl, rfl⟩
  apply hi.gain
  · rw [hpt]
    simp
  · exact .inl hf
  · rw [hf]
  · intro g
    rw [ProcFiles.refs_eq hpt rfl, ProcFiles.refs_eq rfl hpending.2.1, hpending.1]
    simp only [Point.pending, List.count_nil, Nat.add_zero]
  · rw [hpt]
    exact hpending.2.2.1
  · intro np h
    rw [hpending.2.2.2] at h
    cases h
  · rcases hpt' with rfl | rfl <;> exact ⟨hfresh, rfl⟩

theorem Inv.enter_dup {fd' : Fin NOFILE} (hf : (s.proc p).ofile fd = some f)
    (hfree : (s.proc p).ofile fd' = none) :
    Inv (s.setProc p ⟨update (s.proc p).ofile fd' (some f), .dupped f fd', (s.proc p).ofile⟩) := by
  apply hi.enter_move hpt
  · intro g
    rw [ProcFiles.refs_uncounted rfl rfl]
    simp only [Point.pending, List.count_nil, Nat.add_zero, update_idem]
    rw [← hfree, update_eq_self]
  · rfl
  · rfl
  · have hne : fd ≠ fd' := by
      rintro rfl
      rw [hf] at hfree
      cases hfree
    refine ⟨update_self fd' _ _, fd, hne, ?_⟩
    rw [← hf]
    exact update_of_ne hne _ _

/-- `sys_close` has cleared the descriptor and closes its file next. -/
theorem Inv.enter_close (hf : (s.proc p).ofile fd = some f) :
    Inv (s.setProc p ⟨update (s.proc p).ofile fd none, .close f (.ret [] true),
      (s.proc p).ofile⟩) := by
  apply hi.enter_move hpt
  · intro g
    rw [ProcFiles.refs_eq rfl rfl]
    exact fdRefs_clear g hf
  · rfl
  · rfl
  · constructor
    · intro h
      cases h
    · intro fd' h
      cases h

theorem Inv.enter_fork {np : Fin NPROC} (hnp : (s.proc np).point = .unused) :
    Inv ((s.setPoint np .embryo).setProc p ⟨(s.proc p).ofile, .forking np 0, (s.proc p).ofile⟩) := by
  have hne : p ≠ np := by
    rintro rfl
    rw [hpt] at hnp
    cases hnp
  have hempty : (s.proc np).ofile = fun _ => none := by
    have h := hi.point np
    unfold PointOk at h
    simpa only [hnp] using h
  have hfirst : Inv (s.setPoint np .embryo) := by
    apply hi.move
    · rw [hnp]
      simp
    · intro g
      rw [ProcFiles.refs_eq rfl rfl, ProcFiles.refs_eq hnp rfl]
      rfl
    · rw [hnp]
      rfl
    · intro q h
      cases h
    · trivial
  have hp : (s.setPoint np .embryo).proc p = s.proc p := update_of_ne hne _ _
  have hc : (s.setPoint np .embryo).proc np = { s.proc np with point := .embryo } :=
    update_self np _ _
  apply hfirst.move
  · rw [hp, hpt]
    simp
  · intro g
    rw [hp, ProcFiles.refs_eq rfl rfl, ProcFiles.refs_eq hpt rfl]
    rfl
  · rw [hp, hpt]
    rfl
  · intro m hm
    cases hm
    -- nobody was filling the entry, since it was unused
    refine .inr fun q hq => ?_
    have hqn : q ≠ np := by
      rintro rfl
      rw [hc] at hq
      cases hq
    have hsame : (s.setPoint np .embryo).proc q = s.proc q := update_of_ne hqn _ _
    rw [hsame] at hq
    have hemb := (hi.point q).child_embryo hq
    rw [hnp] at hemb
    cases hemb
  · constructor
    · rw [hc]
    · intro fd _
      rw [hc]
      exact congrFun hempty fd

theorem Inv.enter_good (c : Call) :
    Good (s.enter p c) := by
  unfold State.enter
  cases c with
  | dup fd =>
    dsimp only
    cases hf : (s.proc p).ofile fd with
    | none =>
      simp only [State.setProc_setPoint]
      exact hi.enter_fail hpt
    | some f =>
      cases hfd : fdalloc (s.proc p).ofile with
      | none =>
        simp only [State.setProc_setPoint]
        exact hi.enter_fail hpt
      | some fd' =>
        simp only [State.setProc_setFds]
        exact hi.enter_dup hpt hf (fdalloc_free hfd)
  | close fd =>
    dsimp only
    cases hf : (s.proc p).ofile fd with
    | none =>
      simp only [State.setProc_setPoint]
      exact hi.enter_fail hpt
    | some f =>
      simp only [State.setProc_setFds]
      exact hi.enter_close hpt hf
  | «open» =>
    simp only [State.setProc_file, State.setProc_setRef, State.setProc_setPoint]
    cases hf : filealloc s.file with
    | none =>
      exact hi.enter_fail hpt
    | some f =>
      exact hi.enter_filealloc hpt (filealloc_free hf) (.inl rfl)
  | pipe =>
    simp only [State.setProc_file, State.setProc_setRef, State.setProc_setPoint]
    cases hf : filealloc s.file with
    | none =>
      exact hi.enter_fail hpt
    | some f =>
      exact hi.enter_filealloc hpt (filealloc_free hf) (.inr rfl)
  | fork np =>
    dsimp only
    by_cases hnp : p = np
    · subst hnp
      rw [hpt, if_neg (by simp), State.setProc_setPoint]
      exact hi.enter_fail hpt
    · have hne : np ≠ p := fun h => hnp h.symm
      rw [s.setProc_of_ne hne]
      split_ifs with hunused
      · have heq : ((s.setProc p ⟨(s.proc p).ofile, (s.proc p).point, (s.proc p).ofile⟩).setPoint np
            .embryo).setPoint p (.forking np 0) = (s.setPoint np .embryo).setProc p
              ⟨(s.proc p).ofile, .forking np 0, (s.proc p).ofile⟩ := by
          unfold State.setPoint
          rw [s.setProc_of_ne hne, s.setProc_comm hnp, State.setProc_self, State.setProc_setProc]
        rw [heq]
        exact hi.enter_fork hpt hunused
      · rw [State.setProc_setPoint]
        exact hi.enter_fail hpt
  | exec =>
    simp only [State.setProc_setPoint]
    refine hi.enter_point hpt ⟨rfl, rfl, rfl⟩ rfl fun h => ?_
    cases h
  | exit =>
    dsimp only
    split_ifs with hinit
    · rfl
    · rw [State.setProc_setPoint]
      refine hi.enter_point hpt ⟨rfl, rfl, rfl⟩ rfl fun fd h => ?_
      omega

end

/-! ## Steps inside a system call -/

section
variable (hi : Inv s)
include hi

theorem Inv.go_move (hpt : (s.proc p).point = pt) {fds : Fds} {pt' : Point} (hembryo : pt ≠ .embryo)
    (hrefs : ∀ g, ProcFiles.refs ⟨fds, pt', (s.proc p).saved⟩ g = (s.proc p).refs g)
    (hcloses : pt'.closes = pt.closes) (hchild : pt'.child = none ∨ pt'.child = pt.child)
    (hpoint : PointOk s ⟨fds, pt', (s.proc p).saved⟩) : Inv (s.setFds p fds pt') := by
  apply hi.move
  · rw [hpt]
    exact hembryo
  · exact hrefs
  · rw [hpt]
    exact hcloses
  · intro np h
    rcases hchild with hc | hc
    · rw [hc] at h
      cases h
    · rw [hc] at h
      rw [hpt]
      exact .inl h
  · exact hpoint

theorem Inv.go_counted (hpt : (s.proc p).point = pt) {fds : Fds} {pt' : Point}
    (hembryo : pt ≠ .embryo) (hu : pt.uncounted = none ∧ pt'.uncounted = none)
    (hrefs : ∀ g, fdRefs fds g+pt'.pending.count g = fdRefs (s.proc p).ofile g+pt.pending.count g)
    (hcloses : pt'.closes = pt.closes) (hchild : pt'.child = none ∨ pt'.child = pt.child)
    (hpoint : PointOk s ⟨fds, pt', (s.proc p).saved⟩) : Inv (s.setFds p fds pt') := by
  refine hi.go_move hpt hembryo (fun g => ?_) hcloses hchild hpoint
  rw [ProcFiles.refs_eq rfl hu.2, ProcFiles.refs_eq hpt hu.1]
  exact hrefs g

/-- A call that fails has the descriptors of before, and closes the files that it has allocated. -/
theorem Inv.go_undo (hpt : (s.proc p).point = pt) {fds : Fds} {fs : List (Fin NFILE)}
    (hplain : pt ≠ .embryo ∧ pt.uncounted = none ∧ pt.closes = none)
    (hsaved : fds = (s.proc p).saved)
    (hrefs : ∀ g, fdRefs fds g+(f :: fs).count g = fdRefs (s.proc p).ofile g+pt.pending.count g) :
    Inv (s.setFds p fds (.close f (.ret fs false))) := by
  refine hi.go_counted hpt hplain.1 ⟨hplain.2.1, rfl⟩ hrefs hplain.2.2.symm (.inl rfl)
    ⟨fun _ => hsaved, fun fd h => ?_⟩
  cases h

theorem Inv.pointOk (hpt : (s.proc p).point = pt) :
    PointOk s ⟨(s.proc p).ofile, pt, (s.proc p).saved⟩ := by
  have h := hi.point p
  rw [← hpt]
  exact h

theorem Inv.go_filedup {pt' : Point} (hpt : (s.proc p).point = pt)
    (hembryo : pt ≠ .embryo) (hown : 0 < (s.proc p).refs f)
    (hrefs : ∀ g, ProcFiles.refs ⟨(s.proc p).ofile, pt', (s.proc p).saved⟩ g =
      (s.proc p).refs g+[f].count g)
    (hcloses : pt'.closes = pt.closes)
    (hchild : ∀ np, pt'.child = some np → pt.child = some np)
    (hpoint : PointOk (s.setRef f ((s.file f).ref+1)) ⟨(s.proc p).ofile, pt', (s.proc p).saved⟩) :
    Good (s.filedup p f pt') := by
  have hle := hi.refs_le p f
  unfold State.filedup
  rw [if_neg (by omega)]
  subst hpt
  exact hi.gain hembryo (.inr hown) rfl hrefs hcloses hchild hpoint

theorem Inv.go_dupped
    (hpt : (s.proc p).point = .dupped f fd) : Good (s.filedup p f (.user true)) := by
  obtain ⟨hfd, fd', hne, hfd'⟩ := hi.pointOk hpt
  apply hi.go_filedup hpt
  · simp
  · -- the descriptor that was duplicated keeps the file
    apply ProcFiles.refs_pos_of_fd
    have hcounted := ProcFiles.counted_clear (by rw [hpt]; rfl)
    rw [hcounted, update_of_ne hne]
    exact hfd'
  · intro g
    have hclear := fdRefs_clear g hfd
    rw [ProcFiles.refs_eq rfl rfl, ProcFiles.refs_uncounted hpt rfl]
    simp only [Point.pending, List.count_nil, Nat.add_zero]
    exact hclear.symm
  · rfl
  · intro np h
    cases h
  · intro h
    cases h

theorem Inv.go_opened (hpt : (s.proc p).point = .opened f) :
    (fdalloc (s.proc p).ofile = none → Inv (s.setPoint p (.close f (.ret [] false)))) ∧
    ∀ fd, fdalloc (s.proc p).ofile = some fd →
      Inv (s.setFds p (update (s.proc p).ofile fd (some f)) (.opening f)) := by
  obtain ⟨hfresh, hsaved⟩ := hi.pointOk hpt
  constructor
  · intro _
    exact hi.go_undo hpt ⟨by simp, rfl, rfl⟩ hsaved fun _ => rfl
  · intro fd hfd
    refine hi.go_counted hpt (by simp) ⟨rfl, rfl⟩ (fun g => ?_) rfl (.inl rfl)
      ⟨hfresh, fd, update_self fd _ _⟩
    exact (Nat.add_zero _).trans (fdRefs_fill f g (fdalloc_free hfd))

theorem Inv.go_opening (hpt : (s.proc p).point = .opening f)
    (y : File) (href : y.ref = (s.file f).ref) (htype : y.type ≠ .FD_PIPE) :
    Inv ((s.setFile f y).setPoint p (.user true)) := by
  obtain ⟨hfresh, fd, hfd⟩ := hi.pointOk hpt
  have hown : 0 < (s.proc p).refs f := by
    apply ProcFiles.refs_pos_of_fd
    rw [ProcFiles.counted_eq (by rw [hpt]; rfl)]
    exact hfd
  have hfile (g : Fin NFILE) (hg : g ≠ f) : (s.setFile f y).file g = s.file g :=
    update_of_ne hg _ _
  have hself : (s.setFile f y).file f = y := update_self f _ _
  have hsame (g : Fin NFILE) : ((s.setFile f y).file g).ref = (s.file g).ref := by
    by_cases hg : g = f
    · subst hg
      rw [hself, href]
    · rw [hfile g hg]
  apply hi.step (hi.not_child (by simp [hpt])) rfl
  · intro g
    by_cases hg : g = f
    · subst hg
      exact .inr (.inr hown)
    · exact .inl (hfile g hg)
  · intro g
    change ((s.setFile f y).file g).ref+_ = _
    rw [hsame g, ProcFiles.refs_eq hpt rfl, ProcFiles.refs_eq rfl rfl]
    rfl
  · intro g hg
    change ((s.setFile f y).file g).ref = 0 at hg
    rw [hsame g] at hg
    have hne : g ≠ f := by
      rintro rfl
      have hone := hfresh.1
      omega
    change ((s.setFile f y).file g).type = _
    rw [hfile g hne]
    exact hi.zero g hg
  · apply hi.pipes.congr
    · intro g pi w
      change ((s.setFile f y).file g).IsEnd pi w ↔ _
      by_cases hg : g = f
      · subst hg
        rw [hself]
        unfold File.IsEnd
        have hnone := hfresh.2
        simp [htype, hnone]
      · rw [hfile g hg]
    · apply closes_update
      change _ = (s.proc p).point.closes
      rw [hpt]
      rfl
    all_goals rfl
  · intro h
    cases h
  · intro np h
    cases h

theorem Inv.go_piped {f0 : Fin NFILE} (hpt : (s.proc p).point = .piped f0) :
    (filealloc s.file = none → Inv (s.setPoint p (.close f0 (.ret [] false)))) ∧
    ∀ f1, filealloc s.file = some f1 → Inv ((s.setRef f1 1).setPoint p (.pipedTwo f0 f1)) := by
  obtain ⟨hfresh, hsaved⟩ := hi.pointOk hpt
  constructor
  · intro _
    exact hi.go_undo hpt ⟨by simp, rfl, rfl⟩ hsaved fun _ => rfl
  · intro f1 hf1
    have hzero := filealloc_free hf1
    have hne : f0 ≠ f1 := by
      rintro rfl
      have hone := hfresh.1
      omega
    apply hi.gain
    · simp [hpt]
    · exact .inl hzero
    · rw [hzero]
    · intro g
      rw [ProcFiles.refs_eq rfl rfl, ProcFiles.refs_eq hpt rfl]
      simp only [Point.pending, List.count_cons, List.count_nil, Nat.zero_add]
      change fdRefs (s.proc p).ofile g+_ = _
      omega
    · rw [hpt]
      rfl
    · intro np h
      cases h
    · refine ⟨⟨?_, ?_, hne⟩, hsaved⟩
      · unfold Fresh
        rw [s.setRef_ref, s.setRef_type, if_neg hne]
        exact hfresh
      · unfold Fresh
        rw [s.setRef_self]
        exact ⟨rfl, hi.zero f1 hzero⟩

theorem Inv.go_pipedTwo_fail {f0 f1 : Fin NFILE} (hpt : (s.proc p).point = .pipedTwo f0 f1) :
    Inv (s.setPoint p (.close f0 (.ret [f1] false))) := by
  obtain ⟨_, hsaved⟩ := hi.pointOk hpt
  exact hi.go_undo hpt ⟨by simp, rfl, rfl⟩ hsaved fun _ => rfl

theorem Inv.go_pipeEnds (hpt : (s.proc p).point = .pipeEnds rf wf) :
    (fdalloc (s.proc p).ofile = none → Inv (s.setPoint p (.close rf (.ret [wf] false)))) ∧
    ∀ fd0, fdalloc (s.proc p).ofile = some fd0 →
      Inv (s.setFds p (update (s.proc p).ofile fd0 (some rf)) (.pipeFd rf wf fd0)) := by
  have hsaved := hi.pointOk hpt
  constructor
  · intro _
    exact hi.go_undo hpt ⟨by simp, rfl, rfl⟩ hsaved fun _ => rfl
  · intro fd0 hfd0
    have hfree := fdalloc_free hfd0
    refine hi.go_counted hpt (by simp) ⟨rfl, rfl⟩ (fun g => ?_) rfl (.inl rfl) ⟨?_, by rw [← hsaved]⟩
    · have hfill := fdRefs_fill rf g hfree
      simp only [Point.pending, List.count_cons, List.count_nil, Nat.zero_add] at hfill ⊢
      omega
    · rw [← hsaved]
      exact hfree

theorem Inv.go_pipeFd {fd0 : Fin NOFILE} (hpt : (s.proc p).point = .pipeFd rf wf fd0) :
    (fdalloc (s.proc p).ofile = none →
      Inv (s.setFds p (update (s.proc p).ofile fd0 none) (.close rf (.ret [wf] false)))) ∧
    ∀ fd1, fdalloc (s.proc p).ofile = some fd1 →
      Inv (s.setFds p (update (s.proc p).ofile fd1 (some wf)) (.pipeOut rf wf fd0 fd1)) := by
  obtain ⟨hnone, hofile⟩ := hi.pointOk hpt
  have hfd0 : (s.proc p).ofile fd0 = some rf := by
    rw [hofile]
    exact update_self fd0 _ _
  constructor
  · intro _
    refine hi.go_undo hpt ⟨by simp, rfl, rfl⟩ ?_ fun g => ?_
    · rw [hofile, update_idem, ← hnone, update_eq_self]
    · have hclear := fdRefs_clear g hfd0
      simp only [Point.pending, List.count_cons, List.count_nil, Nat.zero_add] at hclear ⊢
      omega
  · intro fd1 hfd1
    have hfree := fdalloc_free hfd1
    have hne : fd0 ≠ fd1 := by
      rintro rfl
      rw [hfd0] at hfree
      cases hfree
    refine hi.go_counted hpt (by simp) ⟨rfl, rfl⟩ (fun g => ?_) rfl (.inl rfl)
      ⟨⟨hnone, ?_, hne⟩, congrArg (fun fds => update fds fd1 (some wf)) hofile⟩
    · exact (Nat.add_zero _).trans (fdRefs_fill wf g hfree)
    · rw [hofile, update_of_ne hne.symm] at hfree
      exact hfree

theorem Inv.go_pipeOut {fd0 fd1 : Fin NOFILE} (hpt : (s.proc p).point = .pipeOut rf wf fd0 fd1) :
    Inv (s.setPoint p (.user true)) ∧
    Inv (s.setFds p (update (update (s.proc p).ofile fd0 none) fd1 none)
      (.close rf (.ret [wf] false))) := by
  obtain ⟨⟨hnone0, hnone1, hne⟩, hofile⟩ := hi.pointOk hpt
  have hfd0 : (s.proc p).ofile fd0 = some rf := by
    rw [hofile, update_of_ne hne, update_self]
  have hfd1 : update (s.proc p).ofile fd0 none fd1 = some wf := by
    rw [update_of_ne hne.symm, hofile, update_self]
  constructor
  · refine hi.go_counted hpt (by simp) ⟨rfl, rfl⟩ (fun _ => rfl) rfl (.inl rfl) fun h => ?_
    cases h
  · refine hi.go_undo hpt ⟨by simp, rfl, rfl⟩ ?_ fun g => ?_
    · -- clearing both descriptors gives the table of before the call
      funext fd
      by_cases h1 : fd = fd1
      · rw [h1, update_self, hnone1]
      · rw [update_of_ne h1]
        by_cases h0 : fd = fd0
        · rw [h0, update_self, hnone0]
        · rw [update_of_ne h0, hofile, update_of_ne h1, update_of_ne h0]
    · have hclear0 := fdRefs_clear g hfd0
      have hclear1 := fdRefs_clear g hfd1
      simp only [Point.pending, List.count_cons, List.count_nil, Nat.zero_add] at hclear0 hclear1 ⊢
      omega

end

end Xv6.FileTable
