import Xv6.FileTableSteps

/-! `fileclose` gives up one reference; the last one of a pipe's end hands the end to `pipeclose`,
and the second `pipeclose` frees the page. -/
namespace Xv6.FileTable

open scoped BigOperators
open Function

variable {s : State} {p : Fin NPROC}

/-! ## Closing a file -/

theorem After.resume_closes (k : After) : k.resume.closes = none := by
  rcases k with ⟨_ | _, _⟩ | _ <;> rfl

theorem After.resume_child (k : After) : k.resume.child = none := by
  rcases k with ⟨_ | _, _⟩ | _ <;> rfl

variable {k : After} {x : ProcFiles} {f : Fin NFILE} {pi : ℕ} {w : Bool}

theorem After.Ok.resume (h : k.Ok x) (s : State) :
    PointOk s ⟨x.ofile, k.resume, x.saved⟩ := by
  rcases k with ⟨_ | ⟨g, fs⟩, ok⟩ | fd
  · exact h
  · refine ⟨h, ?_⟩
    intro fd' h'
    cases h'
  · exact h

theorem refs_pipeclose (ofile saved : Fds) (pi : ℕ) (w : Bool) (k : After) (g : Fin NFILE) :
    ProcFiles.refs ⟨ofile, .pipeclose pi w k, saved⟩ g =
      ProcFiles.refs ⟨ofile, k.resume, saved⟩ g := by
  rcases k with ⟨_ | ⟨f, fs⟩, ok⟩ | fd
  · rw [ProcFiles.refs_eq rfl rfl, ProcFiles.refs_eq rfl rfl]
    rfl
  · rw [ProcFiles.refs_eq rfl rfl, ProcFiles.refs_eq rfl rfl]
    rfl
  · rw [ProcFiles.refs_uncounted rfl rfl, ProcFiles.refs_uncounted rfl rfl]
    rfl

/-- The section of `ftable.lock` in `fileclose` gives up one reference to its file. -/
theorem refs_close {ofile saved : Fds}
    (h : ∀ fd, k = .exit fd → ofile fd = some f) (g : Fin NFILE) :
    ProcFiles.refs ⟨ofile, .close f k, saved⟩ g =
      ProcFiles.refs ⟨ofile, k.resume, saved⟩ g+[f].count g := by
  rcases k with ⟨_ | ⟨f', fs⟩, ok⟩ | fd
  · rw [ProcFiles.refs_eq rfl rfl, ProcFiles.refs_eq rfl rfl]
    simp only [After.resume, Point.pending, List.count_nil, Nat.add_zero]
  · rw [ProcFiles.refs_eq rfl rfl, ProcFiles.refs_eq rfl rfl]
    simp only [After.resume, Point.pending, List.count_cons, List.count_nil]
    omega
  · rw [ProcFiles.refs_eq rfl rfl, ProcFiles.refs_uncounted rfl rfl]
    simp only [After.resume, Point.pending, List.count_nil, Nat.add_zero]
    exact (fdRefs_clear g (h fd rfl)).symm

theorem Inv.close_own (hi : Inv s) (hpt : (s.proc p).point = .close f k) :
    0 < (s.file f).ref ∧ 0 < (s.proc p).refs f ∧
    ∀ g, (s.proc p).refs g =
      ProcFiles.refs ⟨(s.proc p).ofile, k.resume, (s.proc p).saved⟩ g+[f].count g := by
  have hrefs (g : Fin NFILE) : (s.proc p).refs g =
      ProcFiles.refs ⟨(s.proc p).ofile, k.resume, (s.proc p).saved⟩ g+[f].count g := by
    rw [← refs_close (hi.pointOk hpt).2 g, ← hpt]
  have hown : 0 < (s.proc p).refs f := by
    rw [hrefs f, List.count_singleton_self]
    omega
  have hle := hi.refs_le p f
  exact ⟨by omega, hown, hrefs⟩

/-- The last reference is given up: the entry is free, and the end of a pipe it was is left to the
`pipeclose` to come. -/
theorem PipesOk.last {t : State} (h : PipesOk s)
    (hfile : t.file = update s.file f { s.file f with ref := 0, type := .FD_NONE })
    (hproc : t.proc = update s.proc p x)
    (hold : (s.proc p).point.closes = none)
    (hnew : x.point.closes =
      if (s.file f).type = .FD_PIPE then some ((s.file f).pipe, (s.file f).writable) else none)
    (hpipe : t.pipe = s.pipe) (hlive : t.live = s.live) (hallocs : t.allocs = s.allocs)
    (hfrees : t.frees = s.frees) : PipesOk t where
  ends pi w := by
    have hends := endCount_update s.file f { s.file f with ref := 0, type := .FD_NONE } pi w
    have hcloses := closeCount_update s.proc p x pi w
    have hs := h.ends pi w
    have hend : (if (s.file f).IsEnd pi w then 1 else 0) =
        if x.point.closes = some (pi, w) then 1 else 0 := by
      rw [hnew]
      by_cases htype : (s.file f).type = .FD_PIPE
      · simp [File.IsEnd, htype]
      · simp [File.IsEnd, htype]
    have hnone : ¬ ({ s.file f with ref := 0, type := .FD_NONE } : File).IsEnd pi w := by
      simp [File.IsEnd]
    rw [if_neg hnone] at hends
    rw [hold] at hcloses
    simp only [reduceCtorEq, if_false] at hcloses
    rw [hfile, hproc, hpipe, hlive]
    omega
  someOpen pi hl := by
    rw [hlive] at hl
    rw [hpipe]
    exact h.someOpen pi hl
  freed pi := by
    rw [hallocs, hfrees, hlive]
    exact h.freed pi

theorem Inv.close_last (hi : Inv s) {pt : Point}
    (hpt : (s.proc p).point = .close f k) (hone : (s.file f).ref = 1)
    (hclose : pt.closes =
      if (s.file f).type = .FD_PIPE then some ((s.file f).pipe, (s.file f).writable) else none)
    (hchild : pt.child = none)
    (hrefs : ∀ g, ProcFiles.refs ⟨(s.proc p).ofile, pt, (s.proc p).saved⟩ g =
      ProcFiles.refs ⟨(s.proc p).ofile, k.resume, (s.proc p).saved⟩ g)
    (hpoint : ∀ t, PointOk t ⟨(s.proc p).ofile, pt, (s.proc p).saved⟩) :
    Inv ((s.setFile f { s.file f with ref := 0, type := .FD_NONE }).setPoint p pt) := by
  obtain ⟨_, hown, hcount⟩ := hi.close_own hpt
  have hother (g : Fin NFILE) (hg : g ≠ f) :
      (s.setFile f { s.file f with ref := 0, type := .FD_NONE }).file g = s.file g :=
    update_of_ne hg _ _
  have hself : (s.setFile f { s.file f with ref := 0, type := .FD_NONE }).file f =
      { s.file f with ref := 0, type := .FD_NONE } := update_self f _ _
  apply hi.step (hi.not_child (by simp [hpt])) rfl
  · intro g
    by_cases hg : g = f
    · subst hg
      exact .inr (.inr hown)
    · exact .inl (hother g hg)
  · intro g
    have hg := hcount g
    rw [← hrefs g] at hg
    change ((s.setFile f _).file g).ref+_ =
      _+ProcFiles.refs ⟨(s.proc p).ofile, pt, (s.proc p).saved⟩ g
    by_cases hgf : g = f
    · subst hgf
      rw [List.count_singleton_self] at hg
      rw [hself]
      dsimp only
      omega
    · have hne : ¬ f = g := fun h => hgf h.symm
      rw [List.count_singleton, if_neg (by simpa using hne)] at hg
      rw [hother g hgf]
      omega
  · intro g hg
    by_cases hgf : g = f
    · subst hgf
      exact congrArg File.type hself
    · change ((s.setFile f _).file g).ref = 0 at hg
      rw [hother g hgf] at hg
      change ((s.setFile f _).file g).type = _
      rw [hother g hgf]
      exact hi.zero g hg
  · exact hi.pipes.last rfl rfl (by rw [hpt]; rfl) hclose rfl rfl rfl rfl
  · exact hpoint _
  · intro np h
    rw [hchild] at h
    cases h

theorem Inv.go_close (hi : Inv s)
    (hpt : (s.proc p).point = .close f k) : Good (s.fileclose p f k) := by
  obtain ⟨hpos, hown, hcount⟩ := hi.close_own hpt
  have hok : k.Ok ⟨(s.proc p).ofile, .close f k, (s.proc p).saved⟩ := (hi.pointOk hpt).1
  unfold State.fileclose
  rw [if_neg (by omega)]
  by_cases hmore : 0 < (s.file f).ref-1
  · rw [if_pos hmore]
    apply hi.recount
    · simp [hpt]
    · exact .inr hown
    · exact hmore
    · intro g
      have hg := hcount g
      change _ = _+ProcFiles.refs ⟨(s.proc p).ofile, k.resume, (s.proc p).saved⟩ g
      by_cases hgf : g = f
      · subst hgf
        rw [List.count_singleton_self] at hg
        rw [if_pos rfl]
        omega
      · have hne : ¬ f = g := fun h => hgf h.symm
        rw [List.count_singleton, if_neg (by simpa using hne)] at hg
        rw [if_neg hgf]
        omega
    · rw [hpt]
      exact k.resume_closes
    · intro np h
      rw [k.resume_child] at h
      cases h
    · exact hok.resume _
  · rw [if_neg hmore]
    have hone : (s.file f).ref = 1 := by omega
    split_ifs with htype
    · apply hi.close_last hpt hone
      · rw [if_pos htype]
        rfl
      · rfl
      · intro g
        exact refs_pipeclose _ _ _ _ k g
      · intro t
        exact hok
    · apply hi.close_last hpt hone
      · rw [if_neg htype]
        exact k.resume_closes
      · exact k.resume_child
      · intro g
        rfl
      · intro t
        exact hok.resume t

/-! ## The ends of a pipe -/

theorem Pipe.shut_isOpen (x : Pipe) (w v : Bool) :
    (x.shut w).isOpen v = if v = w then false else x.isOpen v := by
  cases w <;> cases v <;> rfl

/-- The end that a process is about to close is open, and nothing else stands for it. -/
theorem PipesOk.closing (h : PipesOk s) (hpt : (s.proc p).point = .pipeclose pi w k) :
    s.live pi = true ∧ (s.pipe pi).isOpen w = true ∧ endCount s.file pi w = 0 ∧
      closeCount s.proc pi w = 1 := by
  have hpos : 0 < closeCount s.proc pi w := by
    have hle := Finset.single_le_sum (s := Finset.univ)
      (f := fun q => if (s.proc q).point.closes = some (pi, w) then 1 else 0)
      (fun q _ => Nat.zero_le _) (Finset.mem_univ p)
    rw [if_pos (by rw [hpt]; rfl)] at hle
    exact hle
  have hs := h.ends pi w
  split_ifs at hs with hc
  · exact ⟨hc.1, hc.2, by omega, by omega⟩
  · omega

/-- `pipeclose` without `kfree`, or with it when the other end is closed too. -/
theorem PipesOk.close {t : State} (h : PipesOk s)
    (hpt : (s.proc p).point = .pipeclose pi w k) (hx : x.point.closes = none)
    (hfile : t.file = s.file) (hproc : t.proc = update s.proc p x)
    (hpipe : t.pipe = update s.pipe pi ((s.pipe pi).shut w))
    (hallocs : t.allocs = s.allocs)
    (hrest : t.live = s.live ∧ t.frees = s.frees ∧ (s.pipe pi).isOpen (!w) = true ∨
      t.live = update s.live pi false ∧
        t.frees = update s.frees pi (s.frees pi+1) ∧ (s.pipe pi).isOpen (!w) = false) :
    PipesOk t := by
  obtain ⟨hlive, hopen, hend, hone⟩ := h.closing hpt
  have hother (pi' : ℕ) (hne : pi' ≠ pi) :
      t.pipe pi' = s.pipe pi' ∧ t.live pi' = s.live pi' ∧ t.frees pi' = s.frees pi' := by
    rw [hpipe, update_of_ne hne]
    rcases hrest with ⟨hl, hf, _⟩ | ⟨hl, hf, _⟩
    · rw [hl, hf]
      exact ⟨rfl, rfl, rfl⟩
    · rw [hl, hf, update_of_ne hne, update_of_ne hne]
      exact ⟨rfl, rfl, rfl⟩
  have hself : t.pipe pi = (s.pipe pi).shut w := by rw [hpipe, update_self]
  constructor
  · intro pi' v
    have hcloses := closeCount_update s.proc p x pi' v
    rw [hx, hpt] at hcloses
    simp only [Point.closes, reduceCtorEq, if_false, Option.some.injEq, Prod.mk.injEq] at hcloses
    have hs := h.ends pi' v
    rw [hfile, hproc]
    by_cases hpi : pi' = pi
    · subst hpi
      rw [hself, Pipe.shut_isOpen]
      by_cases hv : v = w
      · subst hv
        simp only [and_self, if_true] at hcloses
        simp only [if_true, Bool.false_eq_true, and_false, if_false]
        omega
      · have hvw : ¬ w = v := fun h => hv h.symm
        have hnot : v = !w := by
          cases v <;> cases w <;> simp_all
        simp only [hvw, and_false, if_false, Nat.add_zero] at hcloses
        rw [if_neg hv, hcloses, hs]
        rcases hrest with ⟨hl, _, ho⟩ | ⟨hl, _, ho⟩
        · rw [hl]
        · rw [hnot, ho]
          simp
    · have hpi' : ¬ pi = pi' := fun h => hpi h.symm
      obtain ⟨h1, h2, _⟩ := hother pi' hpi
      simp only [hpi', false_and, if_false, Nat.add_zero] at hcloses
      rw [h1, h2, hcloses]
      exact hs
  · intro pi' hl
    by_cases hpi : pi' = pi
    · subst hpi
      rcases hrest with ⟨_, _, ho⟩ | ⟨hlive', _, _⟩
      · refine ⟨!w, ?_⟩
        rw [hself, Pipe.shut_isOpen, if_neg (by simp)]
        exact ho
      · rw [hlive', update_self] at hl
        cases hl
    · obtain ⟨h1, h2, _⟩ := hother pi' hpi
      rw [h2] at hl
      rw [h1]
      exact h.someOpen pi' hl
  · intro pi'
    have hs := h.freed pi'
    rw [hallocs]
    by_cases hpi : pi' = pi
    · subst hpi
      rcases hrest with ⟨hl, hf, _⟩ | ⟨hl, hf, _⟩
      · rw [hl, hf]
        exact hs
      · rw [hl, hf, update_self, update_self]
        rw [hlive] at hs
        simp only [Bool.toNat_true, Bool.toNat_false] at hs ⊢
        omega
    · obtain ⟨_, h2, h3⟩ := hother pi' hpi
      rw [h2, h3]
      exact hs

theorem Inv.go_pipeclose (hi : Inv s)
    (hpt : (s.proc p).point = .pipeclose pi w k) : Good (s.pipeclose p pi w k) := by
  obtain ⟨hlive, _⟩ := hi.pipes.closing hpt
  have hok := hi.pointOk hpt
  -- whatever happens to the pipe, the process goes on with the same references
  have hstep (t : State) (hfile : t.file = s.file) (hproc : t.proc = update s.proc p
        ⟨(s.proc p).ofile, k.resume, (s.proc p).saved⟩) (hpipes : PipesOk t) : Inv t := by
    apply hi.step (hi.not_child (by simp [hpt])) hproc
    · intro f
      rw [hfile]
      exact .inl rfl
    · intro f
      have hrefs := refs_pipeclose (s.proc p).ofile (s.proc p).saved pi w k f
      rw [← hpt] at hrefs
      rw [hfile, ← hrefs]
    · rw [hfile]
      exact hi.zero
    · exact hpipes
    · exact hok.resume t
    · intro np h
      rw [k.resume_child] at h
      cases h
  have hboth : ((s.pipe pi).shut w).readopen = false ∧ ((s.pipe pi).shut w).writeopen = false ↔
      (s.pipe pi).isOpen (!w) = false := by
    cases w <;> simp [Pipe.shut, Pipe.isOpen]
  unfold State.pipeclose
  by_cases hother : (s.pipe pi).isOpen (!w) = false
  · rw [if_pos (hboth.mpr hother), if_pos hlive]
    apply hstep
    · rfl
    · rfl
    exact hi.pipes.close hpt k.resume_closes rfl rfl rfl rfl (.inr ⟨rfl, rfl, hother⟩)
  · rw [if_neg (fun h => hother (hboth.mp h))]
    apply hstep
    · rfl
    · rfl
    exact hi.pipes.close hpt k.resume_closes rfl rfl rfl rfl
      (.inl ⟨rfl, rfl, Bool.eq_true_of_not_eq_false hother⟩)

theorem PipesOk.alloc (h : PipesOk s) {f0 f1 : Fin NFILE} (hne : f0 ≠ f1)
    (h0 : (s.file f0).type = .FD_NONE) (h1 : (s.file f1).type = .FD_NONE)
    (hlive : s.live pi = false) (hcloses : (s.proc p).point.closes = none) :
    PipesOk (s.pipealloc p f0 f1 pi) where
  ends pi' v := by
    unfold State.pipealloc
    have hf1 : ¬ (update s.file f0 { s.file f0 with
        type := .FD_PIPE, readable := true, writable := false, pipe := pi } f1).IsEnd pi' v := by
      rw [update_of_ne hne.symm]
      simp [File.IsEnd, h1]
    have hf0 : ¬ (s.file f0).IsEnd pi' v := by simp [File.IsEnd, h0]
    have hstep0 := endCount_update s.file f0 { s.file f0 with
      type := .FD_PIPE, readable := true, writable := false, pipe := pi } pi' v
    have hstep1 := endCount_update (update s.file f0 { s.file f0 with
      type := .FD_PIPE, readable := true, writable := false, pipe := pi }) f1 { s.file f1 with
      type := .FD_PIPE, readable := false, writable := true, pipe := pi } pi' v
    have hproc := closeCount_update s.proc p
      ⟨(s.proc p).ofile, .pipeEnds f0 f1, (s.proc p).saved⟩ pi' v
    have hs := h.ends pi' v
    rw [if_neg hf0] at hstep0
    rw [if_neg hf1] at hstep1
    rw [hcloses] at hproc
    simp only [File.IsEnd, true_and, Point.closes, reduceCtorEq, if_false] at hstep0 hstep1 hproc
    have hsame : update s.file f0 { s.file f0 with
        type := .FD_PIPE, readable := true, writable := false, pipe := pi } f1 = s.file f1 :=
      update_of_ne hne.symm _ _
    simp only [State.setFile, State.setPoint, State.setProc, hsame]
    by_cases hpi : pi' = pi
    · subst hpi
      rw [hlive] at hs
      simp only [Bool.false_eq_true, false_and, if_false] at hs
      simp only [true_and] at hstep0 hstep1
      simp only [update_self, true_and]
      cases v
      · simp only [Bool.true_eq_false, if_false, if_true] at hstep0 hstep1
        simp only [Pipe.isOpen, if_true, Bool.false_eq_true, if_false]
        omega
      · simp only [Bool.false_eq_true, if_false, if_true] at hstep0 hstep1
        simp only [Pipe.isOpen, if_true]
        omega
    · have hpi' : ¬ pi = pi' := fun h => hpi h.symm
      simp only [hpi', false_and, if_false, Nat.add_zero] at hstep0 hstep1
      rw [update_of_ne hpi, update_of_ne hpi]
      omega
  someOpen pi' hl := by
    change update s.live pi true pi' = true at hl
    change ∃ w, (update s.pipe pi ⟨true, true⟩ pi').isOpen w = true
    by_cases hpi : pi' = pi
    · subst hpi
      rw [update_self]
      exact ⟨true, rfl⟩
    · rw [update_of_ne hpi] at hl ⊢
      exact h.someOpen pi' hl
  freed pi' := by
    change update s.allocs pi (s.allocs pi+1) pi' = s.frees pi'+(update s.live pi true pi').toNat
    have hs := h.freed pi'
    by_cases hpi : pi' = pi
    · subst hpi
      rw [hlive] at hs
      rw [update_self, update_self]
      simp only [Bool.toNat_true, Bool.toNat_false] at hs ⊢
      omega
    · rw [update_of_ne hpi, update_of_ne hpi]
      exact hs

theorem Inv.go_pipealloc (hi : Inv s) {f0 f1 : Fin NFILE}
    (hpt : (s.proc p).point = .pipedTwo f0 f1) (hlive : s.live pi = false) :
    Inv (s.pipealloc p f0 f1 pi) := by
  obtain ⟨⟨h0, h1, hne⟩, hsaved⟩ := hi.pointOk hpt
  have hown0 : 0 < (s.proc p).refs f0 := ProcFiles.refs_pos_of_pending (by simp [hpt, Point.pending])
  have hown1 : 0 < (s.proc p).refs f1 := ProcFiles.refs_pos_of_pending (by simp [hpt, Point.pending])
  have hfile1 : (s.pipealloc p f0 f1 pi).file f1 = { s.file f1 with
      type := .FD_PIPE, readable := false, writable := true, pipe := pi } := by
    simp [State.pipealloc, State.setFile, State.setPoint, State.setProc, update_of_ne hne.symm]
  have hfile0 : (s.pipealloc p f0 f1 pi).file f0 = { s.file f0 with
      type := .FD_PIPE, readable := true, writable := false, pipe := pi } := by
    simp [State.pipealloc, State.setFile, State.setPoint, State.setProc, update_of_ne hne]
  have hfile (g : Fin NFILE) (hg0 : g ≠ f0) (hg1 : g ≠ f1) :
      (s.pipealloc p f0 f1 pi).file g = s.file g := by
    simp [State.pipealloc, State.setFile, State.setPoint, State.setProc,
      update_of_ne hg0, update_of_ne hg1]
  have href (g : Fin NFILE) : ((s.pipealloc p f0 f1 pi).file g).ref = (s.file g).ref := by
    by_cases hg1 : g = f1
    · subst hg1
      rw [hfile1]
    · by_cases hg0 : g = f0
      · subst hg0
        rw [hfile0]
      · rw [hfile g hg0 hg1]
  apply hi.step (hi.not_child (by simp [hpt])) rfl
  · intro g
    by_cases hg1 : g = f1
    · subst hg1
      exact .inr (.inr hown1)
    · by_cases hg0 : g = f0
      · subst hg0
        exact .inr (.inr hown0)
      · exact .inl (hfile g hg0 hg1)
  · intro g
    rw [href g, ProcFiles.refs_eq hpt rfl, ProcFiles.refs_eq rfl rfl]
    rfl
  · intro g hg
    rw [href g] at hg
    have hg0 : g ≠ f0 := by
      rintro rfl
      have hone := h0.1
      omega
    have hg1 : g ≠ f1 := by
      rintro rfl
      have hone := h1.1
      omega
    rw [hfile g hg0 hg1]
    exact hi.zero g hg
  · exact hi.pipes.alloc hne h0.2 h1.2 hlive (by rw [hpt]; rfl)
  · exact hsaved
  · intro np h
    cases h

end Xv6.FileTable
