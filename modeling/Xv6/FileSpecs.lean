import Xv6.ProcSpecs

/-! Open files and pipes: reference counts agree with the descriptors, and a pipe's page is held as
long as one of its ends is open. -/
namespace Xv6
open StateOutcome RadixTree Function

theorem sum_update_add {ι α : Type} [Fintype ι] [DecidableEq ι] (w : α → ℕ) (v : ι → α) (i : ι)
    (x : α) : (∑ j, w (update v i x j))+w (v i) = (∑ j, w (v j))+w x := by
  have hold := Finset.add_sum_erase Finset.univ (fun j => w (v j)) (Finset.mem_univ i)
  have hnew := Finset.add_sum_erase Finset.univ (fun j => w (update v i x j)) (Finset.mem_univ i)
  have hrest : ∑ j ∈ Finset.univ.erase i, w (update v i x j) =
      ∑ j ∈ Finset.univ.erase i, w (v j) := by
    apply Finset.sum_congr rfl
    intro j hj
    rw [update_of_ne (Finset.ne_of_mem_erase hj)]
  rw [update_self] at hnew
  omega

/-- How many descriptors of a process refer to file `i`. -/
def fdRefs (ofile : Fin NOFILE → Option (Fin NFILE)) (i : Fin NFILE) : ℕ :=
  ∑ fd, if ofile fd = some i then 1 else 0

def refs (proc : Fin NPROC → Proc) (i : Fin NFILE) : ℕ := ∑ p, fdRefs (proc p).ofile i

theorem fdRefs_update (ofile : Fin NOFILE → Option (Fin NFILE)) (fd : Fin NOFILE)
    (x : Option (Fin NFILE)) (i : Fin NFILE) :
    fdRefs (update ofile fd x) i+(if ofile fd = some i then 1 else 0) =
      fdRefs ofile i+(if x = some i then 1 else 0) :=
  sum_update_add (fun o => if o = some i then 1 else 0) ofile fd x

section
variable {ofile : Fin NOFILE → Option (Fin NFILE)} {fd : Fin NOFILE}

theorem fdRefs_fill (f g : Fin NFILE) (h : ofile fd = none) :
    fdRefs (update ofile fd (some f)) g = fdRefs ofile g+[f].count g := by
  have hu := fdRefs_update ofile fd (some f) g
  simp only [h, reduceCtorEq, if_false, Option.some.injEq] at hu
  simp only [List.count_singleton, beq_iff_eq]
  omega

theorem fdRefs_clear {f : Fin NFILE} (g : Fin NFILE) (h : ofile fd = some f) :
    fdRefs (update ofile fd none) g+[f].count g = fdRefs ofile g := by
  have hu := fdRefs_update ofile fd none g
  simp only [h, reduceCtorEq, if_false, Option.some.injEq] at hu
  simp only [List.count_singleton, beq_iff_eq]
  omega

theorem fdRefs_pos {f : Fin NFILE} (h : ofile fd = some f) : 0 < fdRefs ofile f := by
  have hc := fdRefs_clear f h
  simp only [List.count_singleton_self] at hc
  omega

end

theorem refs_withProc (k : Kernel) (p : Fin NPROC) (pr : Proc) (i : Fin NFILE) :
    refs (k.withProc p pr).proc i+fdRefs (k.proc p).ofile i = refs k.proc i+fdRefs pr.ofile i :=
  sum_update_add (fun pr : Proc => fdRefs pr.ofile i) k.proc p pr

theorem refs_setFd (k : Kernel) (p : Fin NPROC) (fd : Fin NOFILE) (x : Option (Fin NFILE))
    (i : Fin NFILE) :
    refs (k.withProc p { k.proc p with ofile := update (k.proc p).ofile fd x }).proc i+
        (if (k.proc p).ofile fd = some i then 1 else 0) =
      refs k.proc i+(if x = some i then 1 else 0) := by
  have hproc := refs_withProc k p { k.proc p with ofile := update (k.proc p).ofile fd x } i
  have hfd := fdRefs_update (k.proc p).ofile fd x i
  change _ = _+fdRefs (update (k.proc p).ofile fd x) i at hproc
  omega

variable {k' k1 : Kernel} {e extra : List (Fin NFILE)} {i : Fin NFILE} {p : Fin NPROC}

theorem refs_congr {k : Kernel} (h : ∀ p, (k'.proc p).ofile = (k.proc p).ofile)
    (i : Fin NFILE) : refs k'.proc i = refs k.proc i := by
  unfold refs
  simp only [h]

/-- Reference counts are right, but for the references in `extra`, which kernel code has in
its variables. -/
def Counted (k : Kernel) (extra : List (Fin NFILE)) : Prop :=
  ∀ i, (k.file i).ref = refs k.proc i+extra.count i

def Pipe.isOpen (pi : Pipe) (w : Bool) : Bool := if w then pi.writeopen else pi.readopen

/-- Files that nobody uses are of no type. An end of a pipe is open exactly as long as there
is a file for it, and there is at most one. -/
structure Files (file : Fin NFILE → File) (pipe : ℕ → Pipe) : Prop where
  idle : ∀ i, (file i).ref = 0 → (file i).type = .FD_NONE
  ends : ∀ i, (file i).type = .FD_PIPE → ∀ w, (pipe (file i).pipe).isOpen w = true ↔
    ∃ j, (file j).type = .FD_PIPE ∧ (file j).pipe = (file i).pipe ∧ (file j).writable = w
  unique : ∀ i j, (file i).type = .FD_PIPE → (file j).type = .FD_PIPE →
    (file i).pipe = (file j).pipe → (file i).writable = (file j).writable → i = j

section Ends
variable {file file' : Fin NFILE → File} {pipe : ℕ → Pipe} {a : ℕ} {i : Fin NFILE}

/-- Only reference counts changed. -/
structure SameEnds (file file' : Fin NFILE → File) : Prop where
  type : ∀ i, (file' i).type = (file i).type
  pipe : ∀ i, (file' i).pipe = (file i).pipe
  writable : ∀ i, (file' i).writable = (file i).writable

theorem SameEnds.pipeHeld (h : SameEnds file file') (a : ℕ) :
    Xv6.pipeHeld file' a = Xv6.pipeHeld file a := by
  have hiff : IsPipe file' a ↔ IsPipe file a := by
    unfold IsPipe
    simp only [h.type, h.pipe]
  exact if_congr hiff rfl rfl

theorem SameEnds.files (h : SameEnds file file') (hf : Files file pipe)
    (hidle : ∀ i, (file' i).ref = 0 → (file' i).type = .FD_NONE) : Files file' pipe := by
  refine ⟨hidle, ?_, ?_⟩
  · intro i hi w
    simp only [h.type, h.pipe, h.writable] at hi ⊢
    exact hf.ends i hi w
  · intro i j hi hj hpipe hw
    simp only [h.type, h.pipe, h.writable] at hi hj hpipe hw
    exact hf.unique i j hi hj hpipe hw

theorem SameEnds.setRef (file : Fin NFILE → File) (i : Fin NFILE) (n : ℕ) :
    SameEnds file (update file i { file i with ref := n }) := by
  have h : ∀ j, update file i { file i with ref := n } j =
      { file j with ref := if j = i then n else (file j).ref } := by
    intro j
    by_cases hj : j = i
    · rw [hj, update_self, if_pos rfl]
    · rw [update_of_ne hj, if_neg hj]
  constructor <;> intro j <;> rw [h]

theorem pipeHeld_none (h : ¬IsPipe file a) : Xv6.pipeHeld file a = 0 := if_neg h

/-- The end `i` of a pipe is closed: its file is of no type any more. -/
structure Closes (file file' : Fin NFILE → File) (i : Fin NFILE) : Prop where
  gone : (file' i).type = .FD_NONE ∧ (file' i).ref = 0
  other : ∀ j, j ≠ i → file' j = file j

theorem Closes.type_iff (h : Closes file file' i) (j : Fin NFILE) :
    (file' j).type = .FD_PIPE ↔ j ≠ i ∧ (file j).type = .FD_PIPE := by
  by_cases hj : j = i
  · rw [hj, h.gone.1]
    simp
  · rw [h.other j hj]
    simp [hj]

/-- What `pipeclose` writes. -/
def Pipe.close (pi : Pipe) (w : Bool) : Pipe :=
  if w then { pi with writeopen := false } else { pi with readopen := false }

theorem Pipe.isOpen_close (pi : Pipe) (w w' : Bool) :
    (pi.close w).isOpen w' = (pi.isOpen w' && w' != w) := by
  cases w <;> cases w' <;> simp [Pipe.close, Pipe.isOpen]

theorem Files.closePipe (hf : Files file pipe) (hc : Closes file file' i)
    (hi : (file i).type = .FD_PIPE) : Files file' (update pipe (file i).pipe
      ((pipe (file i).pipe).close (file i).writable)) := by
  refine ⟨?_, ?_, ?_⟩
  · intro j hj
    by_cases hji : j = i
    · rw [hji]
      exact hc.gone.1
    · rw [hc.other j hji] at hj ⊢
      exact hf.idle j hj
  · intro j hj w
    obtain ⟨hji,hjp⟩ := (hc.type_iff j).mp hj
    have hends := hf.ends j hjp w
    rw [hc.other j hji]
    -- a file for that end, other than the one that is closed
    have hexists : (∃ l, (file' l).type = .FD_PIPE ∧ (file' l).pipe = (file j).pipe ∧
        (file' l).writable = w) ↔ ∃ l, l ≠ i ∧ (file l).type = .FD_PIPE ∧
        (file l).pipe = (file j).pipe ∧ (file l).writable = w := by
      constructor
      · rintro ⟨l,hl,hp,hw⟩
        obtain ⟨hli,hlp⟩ := (hc.type_iff l).mp hl
        rw [hc.other l hli] at hp hw
        exact ⟨l,hli,hlp,hp,hw⟩
      · rintro ⟨l,hli,hlp,hp,hw⟩
        exact ⟨l, (hc.type_iff l).mpr ⟨hli,hlp⟩, by rw [hc.other l hli]; exact hp,
          by rw [hc.other l hli]; exact hw⟩
    rw [hexists]
    by_cases hpipe : (file j).pipe = (file i).pipe
    · rw [hpipe, update_self, Pipe.isOpen_close]
      rw [hpipe] at hends
      by_cases hw : w = (file i).writable
      · -- the closed end itself
        rw [hw]
        simp only [bne_self_eq_false, Bool.and_false, Bool.false_eq_true, false_iff]
        rintro ⟨l,hli,hlp,hp,hlw⟩
        exact hli (hf.unique l i hlp hi hp hlw)
      · have hne : (w != (file i).writable) = true := by simpa using hw
        rw [hne, Bool.and_true, hends]
        constructor
        · rintro ⟨l,hlp,hp,hlw⟩
          refine ⟨l, ?_, hlp, hp, hlw⟩
          rintro rfl
          exact hw hlw.symm
        · rintro ⟨l,_,hlp,hp,hlw⟩
          exact ⟨l,hlp,hp,hlw⟩
    · rw [update_of_ne hpipe, hends]
      constructor
      · rintro ⟨l,hlp,hp,hlw⟩
        refine ⟨l, ?_, hlp, hp, hlw⟩
        rintro rfl
        exact hpipe hp.symm
      · rintro ⟨l,_,hlp,hp,hlw⟩
        exact ⟨l,hlp,hp,hlw⟩
  · intro j l hj hl hp hw
    obtain ⟨hji,hjp⟩ := (hc.type_iff j).mp hj
    obtain ⟨hli,hlp⟩ := (hc.type_iff l).mp hl
    rw [hc.other j hji, hc.other l hli] at hp hw
    exact hf.unique j l hjp hlp hp hw

theorem Files.replace (hf : Files file pipe) (hother : ∀ j, j ≠ i → file' j = file j)
    (hi : (file i).type ≠ .FD_PIPE) (hi' : (file' i).type ≠ .FD_PIPE)
    (hidle : (file' i).ref = 0 → (file' i).type = .FD_NONE) : Files file' pipe ∧
      ∀ a, IsPipe file a ↔ IsPipe file' a := by
  have htype : ∀ j, (file' j).type = .FD_PIPE → (file j).type = .FD_PIPE ∧ file' j = file j := by
    intro j hj
    have hji : j ≠ i := by
      rintro rfl
      exact hi' hj
    rw [hother j hji] at hj ⊢
    exact ⟨hj,rfl⟩
  have htype' : ∀ j, (file j).type = .FD_PIPE → (file' j).type = .FD_PIPE ∧ file' j = file j := by
    intro j hj
    have hji : j ≠ i := by
      rintro rfl
      exact hi hj
    rw [hother j hji]
    exact ⟨hj,rfl⟩
  refine ⟨⟨?_, ?_, ?_⟩, ?_⟩
  · intro j hj
    by_cases hji : j = i
    · rw [hji] at hj ⊢
      exact hidle hj
    · rw [hother j hji] at hj ⊢
      exact hf.idle j hj
  · intro j hj w
    obtain ⟨hjp,hsame⟩ := htype j hj
    rw [hsame, hf.ends j hjp w]
    constructor
    · rintro ⟨l,hl,hp,hw⟩
      obtain ⟨hlp,hsame⟩ := htype' l hl
      rw [← hsame] at hp hw
      exact ⟨l,hlp,hp,hw⟩
    · rintro ⟨l,hl,hp,hw⟩
      obtain ⟨hlp,hsame⟩ := htype l hl
      rw [hsame] at hp hw
      exact ⟨l,hlp,hp,hw⟩
  · intro j l hj hl hp hw
    obtain ⟨hjp,hj'⟩ := htype j hj
    obtain ⟨hlp,hl'⟩ := htype l hl
    rw [hj', hl'] at hp hw
    exact hf.unique j l hjp hlp hp hw
  · intro a
    constructor
    · rintro ⟨j,hj,rfl⟩
      obtain ⟨hjp,hsame⟩ := htype' j hj
      exact ⟨j, hjp, by rw [hsame]⟩
    · rintro ⟨j,hj,rfl⟩
      obtain ⟨hjp,hsame⟩ := htype j hj
      exact ⟨j, hjp, by rw [hsame]⟩

/-- Who holds a pipe after one end of it was closed: somebody as long as the other end is
open. -/
theorem Files.isPipe_close (hf : Files file pipe) (hc : Closes file file' i)
    (hi : (file i).type = .FD_PIPE) (a : ℕ) : IsPipe file' a ↔ IsPipe file a ∧
      (a = (file i).pipe → ∃ w, ((pipe a).close (file i).writable).isOpen w = true) := by
  constructor
  · rintro ⟨j,hj,rfl⟩
    obtain ⟨hji,hjp⟩ := (hc.type_iff j).mp hj
    rw [hc.other j hji]
    refine ⟨⟨j,hjp,rfl⟩, fun hpipe => ⟨(file j).writable, ?_⟩⟩
    have hw : (file j).writable ≠ (file i).writable := fun hw => hji (hf.unique j i hjp hi hpipe hw)
    rw [Pipe.isOpen_close, (hf.ends j hjp (file j).writable).mpr ⟨j,hjp,rfl,rfl⟩]
    simpa using hw
  · rintro ⟨⟨j,hjp,rfl⟩,hopen⟩
    by_cases hji : j = i
    · obtain ⟨w,hw⟩ := hopen (by rw [hji])
      rw [Pipe.isOpen_close, Bool.and_eq_true] at hw
      obtain ⟨l,hlp,hp,hlw⟩ := (hf.ends j hjp w).mp hw.1
      have hli : l ≠ i := by
        rintro rfl
        rw [← hlw] at hw
        simp at hw
      exact ⟨l, (hc.type_iff l).mpr ⟨hli,hlp⟩, by rw [hc.other l hli]; exact hp⟩
    · exact ⟨j, (hc.type_iff j).mpr ⟨hji,hjp⟩, by rw [hc.other j hji]⟩

end Ends

section Functions
variable {k : Kernel} {tr : Fin NPROC → Trees}

theorem Pages.holds_pipe (h : Pages k tr) {a : ℕ} (ha : IsPipe k.file a) :
    Holds k.phys (single a) := by
  apply h.holds_of_le
  intro c
  have : single a c ≤ pipeHeld k.file c := by
    by_cases hc : a = c
    · rw [← hc, pipeHeld, if_pos ha, single, if_pos rfl]
    · rw [single, if_neg hc]
      exact Nat.zero_le _
  unfold held
  omega

/-- Files and pipes changed, and with them memory. -/
def Refiled (k : Kernel) (tr : Fin NPROC → Trees) (k' : Kernel) : Prop :=
  ∃ ph' file' pipe', k' = (k.withPhys ph').withFiles file' pipe' ∧ Pages k' tr ∧ Files file' pipe'

theorem fileclose_post (h : Pages k tr) (hf : Files k.file k.pipe) (hi : 1 ≤ (k.file i).ref) :
    post (fileclose i) k (fun _ k' => Refiled k tr k' ∧
      ∀ j, (k'.file j).ref+(if j = i then 1 else 0) = (k.file j).ref) never := by
  unfold fileclose
  rw [post_bind, post_get, if_neg (by omega)]
  by_cases hmany : (k.file i).ref > 1
  · have hsame := SameEnds.setRef k.file i ((k.file i).ref-1)
    rw [if_pos hmany]
    refine ⟨⟨k.phys, _, k.pipe, rfl, ?_, hsame.files hf ?_⟩, ?_⟩
    · exact h.changeFiles k.pipe ((Moves.refl k.phys _).congr (fun _ => rfl)
        (fun a => (hsame.pipeHeld a).symm))
    · intro j hj
      rw [hsame.type]
      apply hf.idle
      by_cases hji : j = i
      · rw [hji, update_self] at hj
        dsimp only at hj
        omega
      · rwa [update_of_ne hji] at hj
    · intro j
      change (update k.file i _ j).ref+_ = _
      by_cases hji : j = i
      · rw [hji, update_self, if_pos rfl]
        dsimp only
        omega
      · rw [update_of_ne hji, if_neg hji]
        rfl
  · obtain ⟨file',hfile'⟩ : ∃ file', file' = update k.file i
      { k.file i with ref := 0, type := .FD_NONE } := ⟨_,rfl⟩
    have hc : Closes k.file file' i := by
      constructor
      · rw [hfile', update_self]
        exact ⟨rfl,rfl⟩
      · intro j hj
        rw [hfile', update_of_ne hj]
    have href : ∀ j, (file' j).ref+(if j = i then 1 else 0) = (k.file j).ref := by
      intro j
      by_cases hji : j = i
      · rw [hji, hc.gone.2, if_pos rfl]
        omega
      · rw [hc.other j hji, if_neg hji]
        rfl
    rw [if_neg hmany, post_bind, setFile, post_modify, ← hfile']
    by_cases htype : (k.file i).type = .FD_PIPE
    · obtain ⟨pipe',hpipe'⟩ : ∃ pipe', pipe' = update k.pipe (k.file i).pipe
        ((k.pipe (k.file i).pipe).close (k.file i).writable) := ⟨_,rfl⟩
      have hfiles := hf.closePipe hc htype
      have hpi : IsPipe k.file (k.file i).pipe := ⟨i,htype,rfl⟩
      have hself : pipe' (k.file i).pipe = (k.pipe (k.file i).pipe).close (k.file i).writable := by
        rw [hpipe', update_self]
      rw [← hpipe'] at hfiles
      rw [if_pos htype]
      unfold pipeclose
      rw [post_bind]
      change post _ (k.withFiles file' (update k.pipe (k.file i).pipe
        ((k.pipe (k.file i).pipe).close (k.file i).writable))) _ _
      rw [← hpipe', post_bind, post_get, withFiles_pipe]
      by_cases hshut : (!(pipe' (k.file i).pipe).readopen && !(pipe' (k.file i).pipe).writeopen) =
          true
      · -- the last end: nobody holds the page any more
        have hnone : ¬IsPipe file' (k.file i).pipe := by
          rw [hf.isPipe_close hc htype, not_and]
          intro _ hopen
          obtain ⟨w,hw⟩ := hopen rfl
          cases w <;> simp_all [Pipe.isOpen]
        have hheld : ∀ a, pipeHeld k.file a = single (k.file i).pipe a+pipeHeld file' a := by
          intro a
          by_cases ha : (k.file i).pipe = a
          · rw [← ha, pipeHeld, if_pos hpi, single, if_pos rfl, pipeHeld_none hnone]
          · have hiff : IsPipe k.file a ↔ IsPipe file' a := by
              rw [hf.isPipe_close hc htype]
              exact ⟨fun h => ⟨h, fun he => absurd he.symm ha⟩, fun h => h.1⟩
            rw [single, if_neg ha, Nat.zero_add]
            exact if_congr hiff rfl rfl
        rw [if_pos hshut, post_vm]
        apply post_imp (kfree_post (h.holds_pipe hpi))
        rintro _ ph' ⟨hmove,_⟩
        refine ⟨⟨ph', file', pipe', rfl, h.changeFiles pipe' ?_, hfiles⟩, href⟩
        exact (hmove.frame (pipeHeld file')).congr (fun a => (hheld a).symm)
          (fun a => Nat.zero_add _)
      · rw [if_neg hshut]
        refine ⟨⟨k.phys, file', pipe', rfl, h.changeFiles pipe' ?_, hfiles⟩, href⟩
        apply (Moves.refl k.phys _).congr (fun _ => rfl)
        intro a
        have hiff : IsPipe k.file a ↔ IsPipe file' a := by
          rw [hf.isPipe_close hc htype, iff_self_and]
          rintro _ rfl
          by_contra hno
          simp_all [Pipe.isOpen]
        exact if_congr hiff rfl rfl
    · obtain ⟨hfiles,hiff⟩ := hf.replace hc.other htype (by rw [hc.gone.1]; simp)
        (fun _ => hc.gone.1)
      rw [if_neg htype]
      refine ⟨⟨k.phys, file', k.pipe, rfl, h.changeFiles k.pipe ?_, hfiles⟩, href⟩
      exact (Moves.refl k.phys _).congr (fun _ => rfl) (fun a => if_congr (hiff a) rfl rfl)

/-- Pages, files and reference counts are in order; `extra` are references in variables. -/
structure Opened (k : Kernel) (tr : Fin NPROC → Trees) (extra : List (Fin NFILE)) : Prop where
  pages : Pages k tr
  files : Files k.file k.pipe
  counted : Counted k extra

/-- Of the processes, only `p` changed, and only its descriptors. -/
structure FdChange (p : Fin NPROC) (k k' : Kernel) : Prop where
  other : ∀ p', p' ≠ p → k'.proc p' = k.proc p'
  self : ∃ ofile, k'.proc p = { k.proc p with ofile := ofile }

theorem FdChange.of_eq (h : k'.proc = k.proc) :
    FdChange p k k' := by
  refine ⟨fun p' _ => by rw [h], (k.proc p).ofile, by rw [h]⟩

theorem FdChange.congr_left (h : FdChange p k1 k')
    (hproc : k1.proc = k.proc) : FdChange p k k' := by
  obtain ⟨hother,hself⟩ := h
  rw [hproc] at hother hself
  exact ⟨hother,hself⟩

theorem FdChange.trans {k2 k3 : Kernel} (h : FdChange p k1 k2)
    (h' : FdChange p k2 k3) : FdChange p k1 k3 := by
  obtain ⟨o1,h1⟩ := h.self
  obtain ⟨o2,h2⟩ := h'.self
  refine ⟨fun p' hp => (h'.other p' hp).trans (h.other p' hp), o2, ?_⟩
  rw [h2, h1]

/-- What a call by `p` that deals with descriptors leaves behind. -/
def Served (p : Fin NPROC) (k : Kernel) (tr : Fin NPROC → Trees) (extra : List (Fin NFILE))
    (k' : Kernel) : Prop :=
  ∃ tr', Opened k' tr' extra ∧ (∀ p', (tr' p').image = (tr p').image) ∧ FdChange p k k'

theorem Served.refl (h : Opened k tr extra) :
    Served p k tr extra k := ⟨tr, h, fun _ => rfl, FdChange.of_eq rfl⟩

theorem Served.trans {k2 : Kernel} {e1 e2 : List (Fin NFILE)}
    (h : Served p k tr e1 k1) (h' : ∀ tr1, Opened k1 tr1 e1 → Served p k1 tr1 e2 k2) :
    Served p k tr e2 k2 := by
  obtain ⟨tr1,ho1,himg1,hfd1⟩ := h
  obtain ⟨tr2,ho2,himg2,hfd2⟩ := h' tr1 ho1
  exact ⟨tr2, ho2, fun p' => (himg2 p').trans (himg1 p'), hfd1.trans hfd2⟩

theorem fileclose_served (p : Fin NPROC) (h : Opened k tr (i :: extra)) :
    post (fileclose i) k (fun _ k' => Served p k tr extra k' ∧ k'.proc = k.proc)
      never := by
  have href := h.counted i
  rw [List.count_cons_self] at href
  apply post_imp (fileclose_post h.pages h.files (by omega))
  rintro _ k' ⟨⟨ph',file',pipe',rfl,hpages,hfiles⟩,hclosed⟩
  refine ⟨⟨tr, ⟨hpages,hfiles,?_⟩, fun _ => rfl, FdChange.of_eq rfl⟩, rfl⟩
  intro j
  have hj := h.counted j
  have hc := hclosed j
  rw [List.count_cons] at hj
  change (file' j).ref = refs k.proc j+_
  change (file' j).ref+_ = _ at hc
  split_ifs at hc with hji
  · rw [hji] at hj hc ⊢
    omega
  · rw [if_neg (by simpa using Ne.symm hji)] at hj
    omega

theorem filealloc_served (p : Fin NPROC) (h : Opened k tr extra) :
    post filealloc k (fun r k' => match r with
      | none => k' = k
      | some i => i ∉ extra ∧ k'.proc = k.proc ∧ Served p k tr (i :: extra) k' ∧
          k'.phys = k.phys ∧ (∀ j, (k'.file j).type = (k.file j).type) ∧
          (k.file i).type = .FD_NONE) never := by
  unfold filealloc
  rw [post_bind, post_get]
  cases hi : fileIndices.find? (fun i => (k.file i).ref = 0) with
  | none => exact rfl
  | some i =>
    have hzero : (k.file i).ref = 0 := by
      have := List.find?_some hi
      simpa using this
    have hsame := SameEnds.setRef k.file i 1
    have hcount := h.counted i
    refine ⟨?_, rfl, ⟨tr, ⟨?_, ?_, ?_⟩, fun _ => rfl, FdChange.of_eq rfl⟩, rfl, hsame.type,
      h.files.idle i hzero⟩
    · intro hmem
      have := List.count_pos_iff.mpr hmem
      omega
    · exact h.pages.changeFiles k.pipe ((Moves.refl k.phys _).congr (fun _ => rfl)
        (fun a => (hsame.pipeHeld a).symm))
    · apply hsame.files h.files
      intro j hj
      rw [hsame.type]
      apply h.files.idle
      by_cases hji : j = i
      · rw [hji, hzero]
      · rwa [update_of_ne hji] at hj
    · intro j
      have hj := h.counted j
      change (update k.file i _ j).ref = refs k.proc j+_
      rw [List.count_cons]
      by_cases hji : j = i
      · rw [hji, update_self, if_pos (by simp)]
        dsimp only
        omega
      · rw [update_of_ne hji, if_neg (by simpa using Ne.symm hji)]
        omega

theorem Opened.incRef (h : Opened k tr e) : Opened (k.withFiles (update k.file i
      { k.file i with ref := (k.file i).ref+1 }) k.pipe) tr (i :: e) := by
  have hsame := SameEnds.setRef k.file i ((k.file i).ref+1)
  refine ⟨?_, ?_, ?_⟩
  · exact h.pages.changeFiles k.pipe ((Moves.refl k.phys _).congr (fun _ => rfl)
      (fun a => (hsame.pipeHeld a).symm))
  · apply hsame.files h.files
    intro j hj
    rw [hsame.type]
    apply h.files.idle
    by_cases hji : j = i
    · rw [hji, update_self] at hj
      exact absurd hj (Nat.succ_ne_zero _)
    · rwa [update_of_ne hji] at hj
  · intro j
    have hj := h.counted j
    change (update k.file i _ j).ref = refs k.proc j+_
    rw [List.count_cons]
    by_cases hji : j = i
    · rw [hji, update_self, if_pos (by simp)]
      dsimp only
      rw [hji] at hj
      omega
    · rw [update_of_ne hji, if_neg (by simpa using Ne.symm hji)]
      omega

theorem filedup_post (hi : 1 ≤ (k.file i).ref) :
    post (filedup i) k (fun _ k' => k' = k.withFiles (update k.file i
      { k.file i with ref := (k.file i).ref+1 }) k.pipe) never := by
  unfold filedup
  rw [post_bind, post_get, if_neg (by omega), setFile]
  rfl

theorem Opened.ref_pos {fd : Fin NOFILE}
    (h : Opened k tr e) (hfd : (k.proc p).ofile fd = some i) : 1 ≤ (k.file i).ref := by
  have hset := refs_setFd k p fd none i
  have hi := h.counted i
  rw [if_pos hfd] at hset
  simp only [reduceCtorEq, if_false] at hset
  omega

theorem Opened.setFd {fd : Fin NOFILE} {x : Option (Fin NFILE)}
    {e' : List (Fin NFILE)} (h : Opened k tr e)
    (hmove : ∀ i, e'.count i+(if x = some i then 1 else 0) =
      e.count i+(if (k.proc p).ofile fd = some i then 1 else 0)) :
    Served p k tr e' (k.withProc p { k.proc p with ofile := update (k.proc p).ofile fd x }) := by
  refine ⟨tr, ⟨h.pages.cosmetic _ ⟨rfl,rfl,rfl,rfl,rfl⟩, h.files, ?_⟩, fun _ => rfl,
    fun p' => withProc_ne, _, withProc_self _ _ _⟩
  intro i
  have hi := h.counted i
  have hm := hmove i
  have hset := refs_setFd k p fd x i
  change (k.file i).ref = _
  omega

end Functions
end Xv6
