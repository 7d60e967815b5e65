import Xv6.FileSpecs

/-! The system calls that make and close descriptors: dup, close, open and pipe. -/
namespace Xv6
open StateOutcome RadixTree Function

variable {e : List (Fin NFILE)} {f0 f1 : Fin NFILE} {file' : Fin NFILE → File} {p : Fin NPROC}

section Calls
variable {k : Kernel} {tr : Fin NPROC → Trees}

theorem fdalloc_post (p : Fin NPROC) (i : Fin NFILE) :
    post (fdalloc p i) k (fun r k' => match r with
      | none => k' = k
      | some fd => (k.proc p).ofile fd = none ∧ k' = k.withProc p
          { k.proc p with ofile := update (k.proc p).ofile fd (some i) })
      never := by
  unfold fdalloc
  rw [post_bind, post_get]
  cases hfd : fdIndices.find? (fun fd => (k.proc p).ofile fd = none) with
  | none => exact rfl
  | some fd =>
    have hnone : (k.proc p).ofile fd = none := by
      have := List.find?_some hfd
      simpa using this
    exact ⟨hnone, rfl⟩

theorem Opened.takeFd {fd : Fin NOFILE} {i : Fin NFILE}
    (h : Opened k tr (i :: e)) (hfd : (k.proc p).ofile fd = none) : Served p k tr e (k.withProc p
      { k.proc p with ofile := update (k.proc p).ofile fd (some i) }) := by
  apply h.setFd
  intro j
  rw [hfd, List.count_cons]
  simp only [Option.some.injEq, reduceCtorEq, if_false, beq_iff_eq]
  omega

theorem Opened.dropFd {fd : Fin NOFILE} {i : Fin NFILE}
    (h : Opened k tr e) (hfd : (k.proc p).ofile fd = some i) : Served p k tr (i :: e) (k.withProc p
      { k.proc p with ofile := update (k.proc p).ofile fd none }) := by
  apply h.setFd
  intro j
  rw [hfd, List.count_cons]
  simp only [Option.some.injEq, reduceCtorEq, if_false, beq_iff_eq]
  omega

theorem fileclose_after {k1 : Kernel} {i : Fin NFILE} (h : Served p k tr (i :: e) k1) :
    post (fileclose i) k1 (fun _ k' => Served p k tr e k') never := by
  obtain ⟨tr1,ho1,himg1,hchange1⟩ := h
  apply post_imp (fileclose_served p ho1)
  rintro _ k2 ⟨⟨tr2,ho2,himg2,hchange2⟩,_⟩
  exact ⟨tr2, ho2, fun p' => (himg2 p').trans (himg1 p'), hchange1.trans hchange2⟩

theorem fileclose_two {k1 : Kernel} (h : Served p k tr [f0,f1] k1) : post (do
        fileclose f0
        fileclose f1) k1 (fun _ k' => Served p k tr [] k') never :=
  post_bind_of (fileclose_after h) fun _ _ h1 => fileclose_after h1

theorem sysDup_served (h : Opened k tr []) (fd : Fin NOFILE) :
    post (sysDup p fd) k (fun _ k' => Served p k tr [] k') never := by
  unfold sysDup
  rw [post_bind, post_get]
  cases hfd : (k.proc p).ofile fd with
  | none => exact Served.refl h
  | some i =>
    have href := h.ref_pos hfd
    apply post_bind_of (fdalloc_post p i)
    intro r k1 h1
    cases r with
    | none =>
      rw [h1]
      exact Served.refl h
    | some fd' =>
      obtain ⟨hnone,rfl⟩ := h1
      have hrun := filedup_post (k := k.withProc p
        { k.proc p with ofile := update (k.proc p).ofile fd' (some i) }) href
      apply post_imp hrun
      rintro _ k2 rfl
      -- the same state is reached when the count is increased first
      have hinc := h.incRef (i := i)
      obtain ⟨tr',ho,himg,hchange⟩ := hinc.takeFd (p := p) hnone
      exact ⟨tr', ho, himg, hchange.congr_left rfl⟩

theorem sysClose_served (h : Opened k tr []) (fd : Fin NOFILE) :
    post (sysClose p fd) k (fun _ k' => Served p k tr [] k') never := by
  unfold sysClose
  rw [post_bind, post_get]
  cases hfd : (k.proc p).ofile fd with
  | none => exact Served.refl h
  | some i =>
    exact fileclose_after (h.dropFd hfd)

theorem openFile_served (h : Opened k tr []) {type : FdType}
    (htype : type ≠ .FD_PIPE) (writable : Bool) :
    post (openFile p type writable) k (fun _ k' => Served p k tr [] k') never := by
  apply post_bind_of (filealloc_served p h)
  intro r k1 h1
  cases r with
  | none =>
    rw [h1]
    exact Served.refl h
  | some i =>
    obtain ⟨_,_,hserved1,_,hsame1,hidle⟩ := h1
    have hfresh : (k1.file i).type ≠ .FD_PIPE := by
      rw [hsame1 i, hidle]
      simp
    apply post_bind_of (fdalloc_post p i)
    intro r k2 h2
    cases r with
    | none =>
      rw [h2]
      exact fileclose_after hserved1
    | some fd =>
      obtain ⟨hnone,rfl⟩ := h2
      obtain ⟨tr1,ho1,himg1,hchange1⟩ := hserved1
      have href : 1 ≤ (k1.file i).ref := by
        have := ho1.counted i
        rw [List.count_cons_self] at this
        omega
      obtain ⟨tr2,ho2,himg2,hchange2⟩ := ho1.takeFd hnone
      obtain ⟨file',hfile'⟩ : ∃ file', file' = update k1.file i
        { k1.file i with type := type, writable := writable } := ⟨_,rfl⟩
      have hself : file' i = { k1.file i with type := type, writable := writable } := by
        rw [hfile', update_self]
      have hother : ∀ j, j ≠ i → file' j = k1.file j := by
        intro j hj
        rw [hfile', update_of_ne hj]
      have hzero : (file' i).ref ≠ 0 := by
        rw [hself]
        exact Nat.ne_of_gt href
      obtain ⟨hfiles,hiff⟩ := ho2.files.replace hother hfresh
        (by rw [hself]; exact htype) (fun hr => absurd hr hzero)
      rw [setFile, post_modify]
      refine ⟨tr2, ⟨?_, hfile' ▸ hfiles, ?_⟩, fun p' => (himg2 p').trans (himg1 p'),
        (hchange1.trans hchange2).trans (FdChange.of_eq rfl)⟩
      · have hpages := ho2.pages.changeFiles k1.pipe
          ((Moves.refl k1.phys _).congr (fun _ => rfl) (fun a => if_congr (hiff a) rfl rfl))
        rw [hfile'] at hpages
        exact hpages
      · intro j
        have href' : (file' j).ref = (k1.file j).ref := by
          by_cases hji : j = i
          · rw [hji, hself]
          · rw [hother j hji]
        rw [hfile'] at href'
        exact href'.trans (ho2.counted j)

theorem Files.newPipe {file : Fin NFILE → File} {pipe : ℕ → Pipe}
    {pi : ℕ} (hf : Files file pipe) (hne : f0 ≠ f1) (h0 : (file f0).type = .FD_NONE)
    (h1 : (file f1).type = .FD_NONE) (hnew : ¬IsPipe file pi)
    (hf0 : (file' f0).type = .FD_PIPE ∧ (file' f0).pipe = pi ∧ (file' f0).writable = false)
    (hf1 : (file' f1).type = .FD_PIPE ∧ (file' f1).pipe = pi ∧ (file' f1).writable = true)
    (hother : ∀ j, j ≠ f0 → j ≠ f1 → file' j = file j)
    (hidle : ∀ j, (file' j).ref = 0 → (file j).ref = 0 ∧ j ≠ f0 ∧ j ≠ f1) :
    Files file' (update pipe pi ⟨true,true⟩) ∧ ∀ a, IsPipe file' a ↔ IsPipe file a ∨ a = pi := by
  -- an end is one of the two new ones, or an old one of another pipe
  have hcases : ∀ j, (file' j).type = .FD_PIPE → (j = f0 ∨ j = f1) ∨
      (j ≠ f0 ∧ j ≠ f1 ∧ (file j).type = .FD_PIPE ∧ file' j = file j ∧ (file' j).pipe ≠ pi) := by
    intro j hj
    by_cases hj0 : j = f0
    · exact Or.inl (Or.inl hj0)
    by_cases hj1 : j = f1
    · exact Or.inl (Or.inr hj1)
    have hsame := hother j hj0 hj1
    rw [hsame] at hj
    exact Or.inr ⟨hj0, hj1, hj, hsame, fun hp => hnew ⟨j, hj, hsame ▸ hp⟩⟩
  have hold : ∀ j, (file j).type = .FD_PIPE → (file' j).type = .FD_PIPE ∧ file' j = file j := by
    intro j hj
    have hsame := hother j (by rintro rfl; rw [h0] at hj; simp at hj)
      (by rintro rfl; rw [h1] at hj; simp at hj)
    exact ⟨hsame ▸ hj, hsame⟩
  have hnewEnd : ∀ j, (j = f0 ∨ j = f1) → (file' j).pipe = pi := by
    rintro j (rfl | rfl)
    · exact hf0.2.1
    · exact hf1.2.1
  refine ⟨⟨?_, ?_, ?_⟩, ?_⟩
  · intro j hj
    obtain ⟨hr,hj0,hj1⟩ := hidle j hj
    rw [hother j hj0 hj1]
    exact hf.idle j hr
  · intro j hj w
    rcases hcases j hj with hends | ⟨_,_,hjp,hsame,hpne⟩
    · rw [hnewEnd j hends, update_self]
      cases w with
      | false => exact ⟨fun _ => ⟨f0,hf0⟩, fun _ => rfl⟩
      | true => exact ⟨fun _ => ⟨f1,hf1⟩, fun _ => rfl⟩
    · rw [update_of_ne hpne]
      rw [hsame] at hpne ⊢
      rw [hf.ends j hjp w]
      constructor
      · rintro ⟨l,hl,hp,hw⟩
        obtain ⟨hlp,hsame⟩ := hold l hl
        exact ⟨l, hlp, by rw [hsame]; exact hp, by rw [hsame]; exact hw⟩
      · rintro ⟨l,hl,hp,hw⟩
        rcases hcases l hl with hends | ⟨_,_,hlp,hsame,_⟩
        · exact absurd (hp.symm.trans (hnewEnd l hends)) hpne
        · rw [hsame] at hp hw
          exact ⟨l,hlp,hp,hw⟩
  · intro j l hj hl hp hw
    rcases hcases j hj with hends | ⟨_,_,hjp,hsame,hpne⟩
    · rcases hcases l hl with hends' | ⟨_,_,_,_,hpne'⟩
      · rcases hends with rfl | rfl <;> rcases hends' with rfl | rfl
        · rfl
        · rw [hf0.2.2, hf1.2.2] at hw
          simp at hw
        · rw [hf0.2.2, hf1.2.2] at hw
          simp at hw
        · rfl
      · exact absurd (hp.symm.trans (hnewEnd j hends)) hpne'
    · rcases hcases l hl with hends' | ⟨_,_,hlp,hsame',_⟩
      · exact absurd (hp.trans (hnewEnd l hends')) hpne
      · rw [hsame, hsame'] at hp hw
        exact hf.unique j l hjp hlp hp hw
  · intro a
    constructor
    · rintro ⟨j,hj,rfl⟩
      rcases hcases j hj with hends | ⟨_,_,hjp,hsame,_⟩
      · exact Or.inr (hnewEnd j hends)
      · exact Or.inl ⟨j, hjp, by rw [hsame]⟩
    · rintro (⟨j,hj,rfl⟩ | rfl)
      · obtain ⟨hjp,hsame⟩ := hold j hj
        exact ⟨j, hjp, by rw [hsame]⟩
      · exact ⟨f0, hf0.1, hf0.2.1⟩

theorem Opened.perm {e' : List (Fin NFILE)} (h : Opened k tr e) (hp : e.Perm e') : Opened k tr e' :=
  ⟨h.pages, h.files, fun i => by rw [h.counted i, hp.count_eq]⟩

theorem Opened.newPipe {ph : Phys} {pi : ℕ} (h : Opened k tr [f0,f1])
    (hne : f0 ≠ f1) (h0 : (k.file f0).type = .FD_NONE) (h1 : (k.file f1).type = .FD_NONE)
    (hk : Kalloced k.phys ph pi)
    (hfile' : file' = update (update k.file f0
        { k.file f0 with type := .FD_PIPE, writable := false, pipe := pi }) f1
        { k.file f1 with type := .FD_PIPE, writable := true, pipe := pi }) :
    Opened ((k.withPhys ph).withFiles file' (update k.pipe pi ⟨true,true⟩)) tr
      [f0,f1] := by
  have hnew : ¬IsPipe k.file pi := by
    intro hpi
    have := (h.pages.holds_pipe hpi).once pi
    rw [hk.free, List.count_cons_self, single, if_pos rfl] at this
    omega
  have hf0 : file' f0 = { k.file f0 with type := .FD_PIPE, writable := false, pipe := pi } := by
    rw [hfile', update_of_ne hne, update_self]
  have hf1 : file' f1 = { k.file f1 with type := .FD_PIPE, writable := true, pipe := pi } := by
    rw [hfile', update_self]
  have hother : ∀ j, j ≠ f0 → j ≠ f1 → file' j = k.file j := by
    intro j hj0 hj1
    rw [hfile', update_of_ne hj1, update_of_ne hj0]
  have href : ∀ j, (file' j).ref = (k.file j).ref := by
    intro j
    by_cases hj0 : j = f0
    · rw [hj0, hf0]
    · by_cases hj1 : j = f1
      · rw [hj1, hf1]
      · rw [hother j hj0 hj1]
  have hused : ∀ j, j ∈ [f0,f1] → (k.file j).ref ≠ 0 := by
    intro j hj
    have := h.counted j
    have := List.count_pos_iff.mpr hj
    omega
  obtain ⟨hfiles,hiff⟩ := h.files.newPipe hne h0 h1 hnew (by rw [hf0]; exact ⟨rfl,rfl,rfl⟩)
    (by rw [hf1]; exact ⟨rfl,rfl,rfl⟩) hother (by
      intro j hj
      rw [href j] at hj
      refine ⟨hj, ?_, ?_⟩
      · rintro rfl
        exact hused j (by simp) hj
      · rintro rfl
        exact hused j (by simp) hj)
  refine ⟨h.pages.changeFiles _ ?_, hfiles, ?_⟩
  · apply ((kalloc_moves hk.endPage hk.mem hk.free).frame (pipeHeld k.file)).congr
    · intro a
      exact Nat.zero_add _
    · intro a
      by_cases ha : pi = a
      · rw [← ha, pipeHeld_none hnew, single, if_pos rfl, pipeHeld,
          if_pos ((hiff pi).mpr (Or.inr rfl))]
      · have : IsPipe file' a ↔ IsPipe k.file a := by
          rw [hiff a]
          exact ⟨fun h => h.resolve_right (Ne.symm ha), Or.inl⟩
        rw [single, if_neg ha, Nat.zero_add]
        exact if_congr this.symm rfl rfl
  · intro j
    change (file' j).ref = _
    rw [href j]
    exact h.counted j

theorem pipealloc_served (h : Opened k tr []) : post pipealloc k (fun r k' => match r with
      | none => Served p k tr [] k'
      | some (rf,wf) => Served p k tr [rf,wf] k' ∧ k'.proc = k.proc) never := by
  apply post_bind_of (filealloc_served p h)
  intro r k1 h1
  cases r with
  | none =>
    rw [h1]
    exact Served.refl h
  | some f0 =>
    obtain ⟨_,hproc1,hserved1,_,htype1,hidle1⟩ := h1
    have hserved := hserved1
    obtain ⟨tr1,ho1,himg1,hchange1⟩ := hserved1
    apply post_bind_of (filealloc_served p ho1)
    intro r k2 h2
    cases r with
    | none =>
      rw [h2]
      exact post_bind_of (fileclose_after hserved) fun _ _ h3 => h3
    | some f1 =>
      obtain ⟨hmem,hproc2,⟨tr2,ho2,himg2,hchange2⟩,_,htype2,hidle2⟩ := h2
      have hne : f0 ≠ f1 := by
        rintro rfl
        exact hmem (by simp)
      have ho := ho2.perm (List.Perm.swap f0 f1 [])
      have himg : ∀ p', (tr2 p').image = (tr p').image := fun p' => (himg2 p').trans (himg1 p')
      have hchange := hchange1.trans hchange2
      rw [post_bind, post_vm]
      apply post_imp (kalloc_post k2.phys)
      rintro pi ph3 ⟨hend,hk⟩
      cases pi with
      | none =>
        have hserved3 : Served p k tr [f0,f1] (k2.withPhys ph3) :=
          ⟨tr2, ⟨ho.pages.changeFiles k2.pipe (Moves.same hend hk _), ho.files, ho.counted⟩, himg,
            hchange.trans (FdChange.of_eq rfl)⟩
        exact post_bind_of (fileclose_after hserved3) fun _ _ h4 =>
          post_bind_of (fileclose_after h4) fun _ _ h5 => h5
      | some pi =>
        have hnew := ho.newPipe hne ((htype2 f0).trans ((htype1 f0).trans hidle1))
          ((htype2 f1).trans hidle2) ⟨hend,hk.1,hk.2⟩ rfl
        rw [post_bind, post_modify, post_bind, setFile, post_modify, post_bind, setFile,
          post_modify, post_pure]
        dsimp only
        rw [update_of_ne hne.symm]
        refine ⟨⟨tr2, hnew, himg, hchange.trans (FdChange.of_eq rfl)⟩, ?_⟩
        exact hproc2.trans hproc1

theorem sysPipe_served {q : ℕ} (h : Opened k tr [])
    (hq : (k.proc p).pagetable = some q) (fdarray : ℕ) :
    post (sysPipe p fdarray) k (fun _ k' => Served p k tr [] k') never := by
  apply post_bind_of (pipealloc_served (p := p) h)
  intro r k1 h1
  cases r with
  | none => exact h1
  | some fs =>
    obtain ⟨rf,wf⟩ := fs
    obtain ⟨hserved1,hproc1⟩ := h1
    apply post_bind_of (fdalloc_post p rf)
    intro r k2 h2
    cases r with
    | none =>
      rw [h2]
      exact fileclose_two hserved1
    | some fd0 =>
      obtain ⟨hnone0,hk2⟩ := h2
      have hserved2 : Served p k tr [wf] k2 := by
        rw [hk2]
        exact hserved1.trans fun tr1 ho1 => ho1.takeFd hnone0
      have hfd0 : (k2.proc p).ofile fd0 = some rf := by
        rw [hk2, withProc_self]
        exact update_self _ _ _
      have hq2 : (k2.proc p).pagetable = some q := by
        rw [hk2, withProc_self, hproc1]
        exact hq
      clear hk2 hserved1
      apply post_bind_of (fdalloc_post p wf)
      intro r k3 h3
      cases r with
      | none =>
        rw [h3]
        exact fileclose_two (hserved2.trans fun _ ho => ho.dropFd hfd0)
      | some fd1 =>
        obtain ⟨hnone1,hk3⟩ := h3
        have hne : fd0 ≠ fd1 := by
          rintro rfl
          rw [hfd0] at hnone1
          exact absurd hnone1 (by simp)
        have hserved3 : Served p k tr [] k3 := by
          rw [hk3]
          exact hserved2.trans fun tr2 ho2 => ho2.takeFd hnone1
        have hfds : (k3.proc p).ofile fd0 = some rf ∧ (k3.proc p).ofile fd1 = some wf := by
          rw [hk3, withProc_self]
          exact ⟨(update_of_ne hne _ _).trans hfd0, update_self _ _ _⟩
        have hq3 : (k3.proc p).pagetable = some q := by
          rw [hk3, withProc_self]
          exact hq2
        clear hk3 hserved2
        -- a copy leaves the descriptors as they are
        have hcopy : ∀ (k3 : Kernel) va, Served p k tr [] k3 →
            ((k3.proc p).ofile fd0 = some rf ∧ (k3.proc p).ofile fd1 = some wf) ∧
              (k3.proc p).pagetable = some q →
            post (copyoutProc p va 4) k3 (fun _ k4 => Served p k tr [] k4 ∧
              ((k4.proc p).ofile fd0 = some rf ∧ (k4.proc p).ofile fd1 = some wf) ∧
                (k4.proc p).pagetable = some q) never := by
          intro k3 va hs hp
          obtain ⟨tr3,ho3,himg3,hchange3⟩ := hs
          apply post_imp (copyoutProc_post ho3.pages hp.2 va 4)
          intro _ k4 ht
          obtain ⟨ph4,tr4,rfl,hpages4,himg4⟩ := ht
          exact ⟨⟨tr4, ⟨hpages4,ho3.files,ho3.counted⟩, fun p' => (himg4 p').trans (himg3 p'),
            hchange3.trans (FdChange.of_eq rfl)⟩, hp⟩
        apply post_bind_of (hcopy k3 fdarray hserved3 ⟨hfds,hq3⟩)
        rintro ok k4 ⟨hserved4,hp4⟩
        have hsecond : post (if ok then copyoutProc p ((fdarray+4) % 2^64) 4 else pure false) k4
            (fun _ k5 => Served p k tr [] k5 ∧
              ((k5.proc p).ofile fd0 = some rf ∧ (k5.proc p).ofile fd1 = some wf) ∧
                (k5.proc p).pagetable = some q) never := by
          cases ok with
          | true => exact hcopy k4 _ hserved4 hp4
          | false => exact ⟨hserved4,hp4⟩
        apply post_bind_of hsecond
        rintro ok k5 ⟨hserved5,⟨hfd0',hfd1'⟩,_⟩
        cases ok with
        | true => exact hserved5
        | false =>
          have hserved6 := hserved5.trans fun _ ho => ho.dropFd hfd0'
          have hserved7 := hserved6.trans fun _ ho => ho.dropFd (i := wf) (by
            rw [withProc_self]
            exact (update_of_ne hne.symm _ _).trans hfd1')
          exact fileclose_two (hserved7.trans fun _ ho => .refl (ho.perm (.swap rf wf [])))

end Calls
end Xv6
