import Xv6.KernelThreads
import Xv6.RingWindow

/-! The line discipline of the console, kernel/console.c, as a queue of bytes. A step is the input
of a character, or what a reader does under `cons.lock` until it returns or sleeps. Copies to user
memory succeed. -/
namespace Xv6.Console
open Threads RingWindow Function

/-- How a section of `consoleread` ends: with the bytes that it returns, or asleep with `left` of
them missing. -/
inductive Outcome where
  | returns (got : List UInt8)
  | sleeps (left : ℕ) (got : List UInt8)
  deriving DecidableEq

/-- The outer loop of `consoleread`, while `n` is `left`. -/
def readFrom (target : ℕ) : ℕ → ConsBuf → List UInt8 → ConsBuf × Outcome
  | 0, b, got => (b, .returns got)
  | left+1, b, got =>
    if b.r = b.w then (b, .sleeps (left+1) got)
    else
      let c := b.buf (b.r%INPUT_BUF_SIZE).toNat
      let b := { b with r := b.r+1 }
      if c = ctrlD then
        -- `^D` is saved for the next call, unless this one would return 0
        if left+1 < target then ({ b with r := b.r-1 }, .returns got) else (b, .returns got)
      else if c = newline then (b, .returns (got ++ [c]))
      else readFrom target left b (got ++ [c])

/-- What characters and readers do to a console that is kept in a `σ`. -/
structure Device (σ : Type) where
  /-- The input of a character, and whether readers are woken. -/
  input : σ → UInt8 → σ × Bool
  /-- A reader with a target, what is left of it and what it has got. -/
  read : ℕ → ℕ → σ → List UInt8 → σ × Outcome

def cons : Device ConsBuf where
  input := ConsBuf.input
  read := readFrom

/-- A call of `consoleread` that sleeps. -/
structure Reader where
  target : ℕ
  left : ℕ
  got : List UInt8
  deriving DecidableEq

structure State (σ : Type) where
  dev : σ
  reader : ℕ → Option Reader

/-- A character arrives; process `p` calls `consoleread`; it wakes up. `dead` says that it has been
killed, which it finds out when there is nothing to read. -/
inductive Event where
  | input (c : UInt8)
  | read (p : ℕ) (n : ℤ) (dead : Bool)
  | wake (p : ℕ) (dead : Bool)
  deriving DecidableEq

/-- What an event brings about: readers are woken, or a call returns; `none` is -1. -/
inductive Output where
  | nothing
  | woken
  | result (p : ℕ) (bytes : Option (List UInt8))
  deriving DecidableEq

/-- The end of a section of process `p`. -/
def Outcome.finish (reader : ℕ → Option Reader) (p target : ℕ) (dead : Bool) :
    Outcome → (ℕ → Option Reader) × Output
  | .returns got => (update reader p none, .result p (some got))
  | .sleeps left got =>
    if dead then (update reader p none, .result p none)
    else (update reader p (some ⟨target, left, got⟩), .nothing)

section System
variable {σ : Type} (D : Device σ)

/-- What a reader does until it returns or sleeps. -/
def reads (s : State σ) (p : ℕ) (rd : Reader) (dead : Bool) : State σ × Output :=
  let r := D.read rd.target rd.left s.dev rd.got
  let f := r.2.finish s.reader p rd.target dead
  (⟨r.1, f.1⟩, f.2)

def step (s : State σ) : Event → State σ × Output
  | .input c =>
    let r := D.input s.dev c
    (⟨r.1, s.reader⟩, if r.2 then .woken else .nothing)
  | .read p n dead =>
    match s.reader p with
    | none => reads D s p ⟨n.toNat, n.toNat, []⟩ dead
    | some _ => (s, .nothing)
  | .wake p dead =>
    match s.reader p with
    | none => (s, .nothing)
    | some rd => reads D s p rd dead

def run (s : State σ) : List Event → State σ × List Output
  | [] => (s, [])
  | ev :: evs =>
    let r := step D s ev
    let rs := run r.1 evs
    (rs.1, r.2 :: rs.2)

end System

/-- The console as it is meant: bytes that can be read, and a line that can still be edited. -/
structure Tty where
  committed : List UInt8
  pending : List UInt8

namespace Tty

def size (t : Tty) : ℕ := t.committed.length+t.pending.length

def commit (t : Tty) : Tty := ⟨t.committed ++ t.pending, []⟩

def input (t : Tty) (c : UInt8) : Tty × Bool :=
  if c = ctrlP then (t, false)
  else if c = ctrlU then ({ t with pending := [] }, false)
  else if c = ctrlH ∨ c = delete then ({ t with pending := t.pending.dropLast }, false)
  else if c ≠ 0 ∧ t.size < INPUT_BUF_SIZE.toNat then
    let c := if c = carriageReturn then newline else c
    let t := { t with pending := t.pending ++ [c] }
    if c = newline ∨ c = ctrlD ∨ t.size = INPUT_BUF_SIZE.toNat then (t.commit, true) else (t, false)
  else (t, false)

/-- A reader takes bytes up to the number it wants, to the end of a line, or to a `^D`. A `^D` is
taken if it is the first byte, and left otherwise. -/
def take : ℕ → List UInt8 → List UInt8 → List UInt8 × Outcome
  | 0, q, got => (q, .returns got)
  | left+1, [], got => ([], .sleeps (left+1) got)
  | left+1, c :: q, got =>
    if c = ctrlD then if got = [] then (q, .returns []) else (c :: q, .returns got)
    else if c = newline then (q, .returns (got ++ [c]))
    else take left q (got ++ [c])

def read (_ left : ℕ) (t : Tty) (got : List UInt8) : Tty × Outcome :=
  let r := take left t.committed got
  (⟨r.1, t.pending⟩, r.2)

end Tty

def tty : Device Tty where
  input := Tty.input
  read := Tty.read

structure Holds (b : ConsBuf) (t : Tty) : Prop where
  window : Window INPUT_BUF_SIZE.toNat b.buf b.r.toNat (t.committed ++ t.pending)
  w : b.w.toNat = (b.r.toNat+t.committed.length)%2^32
  e : b.e.toNat = (b.r.toNat+t.size)%2^32

structure Rep (b : ConsBuf) (t : Tty) : Prop extends Holds b t where
  line : newline ∉ t.pending
  full : t.size = INPUT_BUF_SIZE.toNat → t.pending = []

namespace Holds

variable {b : ConsBuf} {t : Tty}

theorem size_le (h : Holds b t) : t.size ≤ 128 := by
  have hfits := h.window.fits
  rw [List.length_append] at hfits
  exact hfits

theorem room (h : Holds b t) : (b.e-b.r).toNat = t.size := by
  have he := h.e
  have hle := h.size_le
  have hr := b.r.toNat_lt
  rw [UInt32.toNat_sub]
  omega

theorem line_length (h : Holds b t) : (b.e-b.w).toNat = t.pending.length := by
  have he := h.e
  have hw := h.w
  have hle := h.size_le
  rw [Tty.size] at he hle
  rw [UInt32.toNat_sub]
  omega

theorem no_line_iff (h : Holds b t) : b.e = b.w ↔ t.pending = [] := by
  have he := h.e
  have hw := h.w
  have hle := h.size_le
  rw [Tty.size] at he hle
  rw [← List.length_eq_zero_iff, ← UInt32.toNat_inj]
  omega

theorem empty_iff (h : Holds b t) : b.r = b.w ↔ t.committed = [] := by
  have hw := h.w
  have hle := h.size_le
  have hr := b.r.toNat_lt
  rw [Tty.size] at hle
  rw [← List.length_eq_zero_iff, ← UInt32.toNat_inj]
  omega

variable {line : List UInt8}

theorem next {c : UInt8} {q : List UInt8} (h : Holds b ⟨c :: q, line⟩) :
    b.buf (b.r%INPUT_BUF_SIZE).toNat = c ∧ Holds { b with r := b.r+1 } ⟨q, line⟩ := by
  have hw := h.w
  have he := h.e
  have hone : (1 : UInt32).toNat = 1 := rfl
  have hnext : (b.r+1).toNat = (b.r.toNat+1)%2^32 := by rw [UInt32.toNat_add, hone]
  rw [Tty.size, List.length_cons] at he
  rw [List.length_cons] at hw
  dsimp only at he
  constructor
  · exact h.window.head.symm
  · refine ⟨h.window.tail.congr ?_, ?_, ?_⟩
    · change (b.r.toNat+1)%128 = (b.r+1).toNat%128
      omega
    · change b.w.toNat = ((b.r+1).toNat+q.length)%2^32
      omega
    · change b.e.toNat = ((b.r+1).toNat+(q.length+line.length))%2^32
      omega

theorem push (h : Holds b t) (hroom : t.size < 128) (c : UInt8) :
    Holds { b with buf := update b.buf (b.e%INPUT_BUF_SIZE).toNat c, e := b.e+1 }
      { t with pending := t.pending ++ [c] } := by
  have he := h.e
  have hone : (1 : UInt32).toNat = 1 := rfl
  refine ⟨?_, h.w, ?_⟩
  · have hplace : (b.e%INPUT_BUF_SIZE).toNat =
        (b.r.toNat+(t.committed ++ t.pending).length)%INPUT_BUF_SIZE.toNat := by
      rw [UInt32.toNat_mod, he, List.length_append]
      change (b.r.toNat+t.size)%2^32%128 = (b.r.toNat+t.size)%128
      omega
    have hpush := h.window.push (by rw [List.length_append]; exact hroom) c
    rw [← hplace, List.append_assoc] at hpush
    exact hpush
  · change (b.e+1).toNat = (b.r.toNat+(t.committed.length+(t.pending ++ [c]).length))%2^32
    rw [UInt32.toNat_add, List.length_append, List.length_singleton]
    rw [Tty.size] at he
    omega

theorem erase {q : List UInt8} {c : UInt8} (h : Holds b ⟨q, line ++ [c]⟩) :
    b.buf ((b.e-1)%INPUT_BUF_SIZE).toNat = c ∧ Holds { b with e := b.e-1 } ⟨q, line⟩ := by
  have he := h.e
  have hone : (1 : UInt32).toNat = 1 := rfl
  have hwindow := h.window
  rw [← List.append_assoc] at hwindow
  have hsize : b.e.toNat = (b.r.toNat+(q.length+line.length)+1)%2^32 := by
    rw [he, Tty.size, List.length_append, List.length_singleton]
    dsimp only
    omega
  have hprev : (b.e-1).toNat = (b.r.toNat+(q.length+line.length))%2^32 := by
    rw [UInt32.toNat_sub, hone]
    omega
  constructor
  · rw [UInt32.toNat_mod, hprev, hwindow.last, List.length_append]
    change b.buf ((b.r.toNat+(q.length+line.length))%2^32%128) =
      b.buf ((b.r.toNat+(q.length+line.length))%128)
    congr 1
    omega
  · exact ⟨hwindow.init, h.w, hprev⟩

theorem commit (h : Holds b t) : Holds { b with w := b.e } t.commit := by
  have he := h.e
  rw [Tty.size, ← List.length_append] at he
  refine ⟨?_, he, ?_⟩
  · change Window _ _ _ (t.committed ++ t.pending ++ [])
    rw [List.append_nil]
    exact h.window
  · exact he

end Holds

variable {b : ConsBuf} {line q : List UInt8} {s : State ConsBuf} {t : State Tty}

theorem killLine_holds (h : Holds b ⟨q, line⟩)
    (hline : newline ∉ line) : Holds (b.killLine line.length) ⟨q, []⟩ := by
  -- the loop goes backwards through the line
  induction line using List.reverseRecOn generalizing b with
  | nil => exact h
  | append_singleton line c ih =>
    obtain ⟨hc, hrest⟩ := h.erase
    have hne : b.e ≠ b.w := fun he => absurd (h.no_line_iff.mp he) (by simp)
    rw [List.mem_append, not_or, List.mem_singleton] at hline
    rw [List.length_append, List.length_singleton, ConsBuf.killLine,
      if_pos ⟨hne, by rw [hc]; exact fun he => hline.2 he.symm⟩]
    exact ih hrest hline.1

theorem input_rep {t : Tty} (h : Rep b t) (c : UInt8) :
    Rep (cons.input b c).1 (tty.input t c).1 ∧ (cons.input b c).2 = (tty.input t c).2 := by
  change Rep (b.input c).1 (t.input c).1 ∧ (b.input c).2 = (t.input c).2
  unfold ConsBuf.input Tty.input
  by_cases hP : c = ctrlP
  · rw [if_pos hP, if_pos hP]
    exact ⟨h, rfl⟩
  rw [if_neg hP, if_neg hP]
  by_cases hU : c = ctrlU
  · rw [if_pos hU, if_pos hU]
    refine ⟨⟨?_, by simp, fun _ => rfl⟩, rfl⟩
    rw [h.line_length]
    exact killLine_holds h.toHolds h.line
  rw [if_neg hU, if_neg hU]
  by_cases hH : c = ctrlH ∨ c = delete
  · rw [if_pos hH, if_pos hH]
    obtain ⟨q, line⟩ := t
    rcases List.eq_nil_or_concat' line with hnil | ⟨line', x, hx⟩
    · subst hnil
      rw [if_neg fun hn => hn (h.no_line_iff.mpr rfl)]
      exact ⟨h, rfl⟩
    · subst hx
      rw [if_pos fun he => absurd (h.no_line_iff.mp he) (by simp)]
      rw [List.dropLast_concat]
      have hline := h.line
      rw [List.mem_append, not_or] at hline
      refine ⟨⟨h.toHolds.erase.2, hline.1, fun hfull => ?_⟩, rfl⟩
      have hle := h.size_le
      rw [Tty.size, List.length_append, List.length_singleton] at hle
      dsimp only at hle
      change q.length+line'.length = 128 at hfull
      omega
  rw [if_neg hH, if_neg hH]
  have hlt : b.e-b.r < INPUT_BUF_SIZE ↔ t.size < INPUT_BUF_SIZE.toNat := by
    rw [UInt32.lt_iff_toNat_lt, h.room]
  by_cases hroom : c ≠ 0 ∧ t.size < INPUT_BUF_SIZE.toNat
  swap
  · rw [if_neg fun hn => hroom ⟨hn.1, hlt.mp hn.2⟩, if_neg hroom]
    exact ⟨h, rfl⟩
  rw [if_pos ⟨hroom.1, hlt.mpr hroom.2⟩, if_pos hroom]
  generalize (if c = carriageReturn then newline else c) = x
  have hpush := h.toHolds.push hroom.2 x
  have hfull : (b.e+1-b.r = INPUT_BUF_SIZE) ↔
      ({ t with pending := t.pending ++ [x] } : Tty).size = INPUT_BUF_SIZE.toNat := by
    rw [← UInt32.toNat_inj, hpush.room]
  by_cases hend : x = newline ∨ x = ctrlD ∨
      ({ t with pending := t.pending ++ [x] } : Tty).size = INPUT_BUF_SIZE.toNat
  · rw [if_pos (hend.imp_right (Or.imp_right hfull.mpr)), if_pos hend]
    exact ⟨⟨hpush.commit, by simp [Tty.commit], fun _ => rfl⟩, rfl⟩
  · rw [if_neg fun hn => hend (hn.imp_right (Or.imp_right hfull.mp)), if_neg hend]
    rw [not_or, not_or] at hend
    refine ⟨⟨hpush, ?_, fun hf => absurd hf hend.2.2⟩, rfl⟩
    rw [List.mem_append, not_or, List.mem_singleton]
    exact ⟨h.line, fun he => hend.1 he.symm⟩

theorem read_rep {target : ℕ} (left : ℕ) {got : List UInt8}
    (h : Rep b ⟨q, line⟩) (hgot : got.length+left = target) :
    Rep (readFrom target left b got).1 ⟨(Tty.take left q got).1, line⟩ ∧
      (readFrom target left b got).2 = (Tty.take left q got).2 := by
  induction left generalizing b q got with
  | zero => exact ⟨h, rfl⟩
  | succ left ih =>
    unfold readFrom
    cases q with
    | nil =>
      rw [if_pos (h.empty_iff.mpr rfl)]
      exact ⟨h, rfl⟩
    | cons c q =>
      rw [if_neg fun he => absurd (h.empty_iff.mp he) (by simp)]
      obtain ⟨hc, hnext⟩ := h.toHolds.next
      rw [hc]
      unfold Tty.take
      -- what is left of the console is not full
      have hrest : Rep { b with r := b.r+1 } ⟨q, line⟩ := by
        refine ⟨hnext, h.line, fun hfull => ?_⟩
        have hle := h.size_le
        rw [Tty.size, List.length_cons] at hle
        dsimp only at hle
        change q.length+line.length = 128 at hfull
        omega
      by_cases hD : c = ctrlD
      · rw [if_pos hD, if_pos hD]
        by_cases hfirst : got = []
        · subst hfirst
          rw [List.length_nil] at hgot
          rw [if_neg (by omega)]
          exact ⟨hrest, rfl⟩
        · have hpos := List.length_pos_iff.mpr hfirst
          rw [if_pos (by omega), if_neg hfirst]
          rw [UInt32.add_sub_cancel]
          exact ⟨h, rfl⟩
      rw [if_neg hD, if_neg hD]
      by_cases hN : c = newline
      · rw [if_pos hN, if_pos hN]
        exact ⟨hrest, rfl⟩
      rw [if_neg hN, if_neg hN]
      apply ih hrest
      rw [List.length_append, List.length_singleton]
      omega

theorem take_sleeps {left left' : ℕ} {got got' : List UInt8}
    (h : (Tty.take left q got).2 = .sleeps left' got') : got'.length+left' = got.length+left := by
  induction left generalizing q got with
  | zero => exact absurd h (by simp [Tty.take])
  | succ left ih =>
    cases q with
    | nil =>
      obtain ⟨hl, hg⟩ := Outcome.sleeps.inj h
      rw [← hl, ← hg]
    | cons c q =>
      unfold Tty.take at h
      split_ifs at h
      have hrest := ih h
      rw [List.length_append, List.length_singleton] at hrest
      omega

theorem take_suffix (left : ℕ) (q got : List UInt8) : ∃ taken, q = taken ++ (Tty.take left q got).1 := by
  induction left generalizing q got with
  | zero => exact ⟨[], rfl⟩
  | succ left ih =>
    cases q with
    | nil => exact ⟨[], rfl⟩
    | cons c q =>
      unfold Tty.take
      split_ifs
      · exact ⟨[c], rfl⟩
      · exact ⟨[], rfl⟩
      · exact ⟨[c], rfl⟩
      · obtain ⟨taken, htaken⟩ := ih q (got ++ [c])
        exact ⟨c :: taken, congrArg (c :: ·) htaken⟩

theorem eq_some_of_update_none {reader : ℕ → Option Reader} {p p' : ℕ} {rd : Reader}
    (h : update reader p none p' = some rd) : reader p' = some rd := by
  by_cases hp : p' = p
  · subst hp
    rw [update_self] at h
    cases h
  · rw [update_of_ne hp] at h
    exact h

/-- The code and the specification are at the same point. -/
structure Sim (s : State ConsBuf) (t : State Tty) : Prop where
  dev : Rep s.dev t.dev
  reader : s.reader = t.reader
  got : ∀ p rd, t.reader p = some rd → rd.got.length+rd.left = rd.target

theorem Sim.reads (h : Sim s t) (p : ℕ) (rd : Reader)
    (hrd : rd.got.length+rd.left = rd.target) (dead : Bool) :
    Sim (reads cons s p rd dead).1 (reads tty t p rd dead).1 ∧
      (reads cons s p rd dead).2 = (reads tty t p rd dead).2 := by
  obtain ⟨hdev, hout⟩ := read_rep rd.left h.dev hrd
  have hfinish : (readFrom rd.target rd.left s.dev rd.got).2.finish s.reader p rd.target dead =
      (Tty.take rd.left t.dev.committed rd.got).2.finish t.reader p rd.target dead := by
    rw [h.reader, hout]
  refine ⟨⟨hdev, congrArg Prod.fst hfinish, ?_⟩, congrArg Prod.snd hfinish⟩
  intro p' rd' hp'
  change ((Tty.take rd.left t.dev.committed rd.got).2.finish t.reader p rd.target dead).1 p' = _ at hp'
  cases hend : (Tty.take rd.left t.dev.committed rd.got).2 with
  | returns got =>
    rw [hend] at hp'
    exact h.got p' rd' (eq_some_of_update_none hp')
  | sleeps left got =>
    rw [hend, Outcome.finish] at hp'
    split_ifs at hp' with hdead
    · exact h.got p' rd' (eq_some_of_update_none hp')
    · by_cases hpp : p' = p
      · subst hpp
        dsimp only at hp'
        rw [update_self] at hp'
        rw [← Option.some.inj hp']
        exact (take_sleeps hend).trans hrd
      · dsimp only at hp'
        rw [update_of_ne hpp] at hp'
        exact h.got p' rd' hp'

theorem Sim.step (h : Sim s t) (ev : Event) :
    Sim (step cons s ev).1 (step tty t ev).1 ∧ (step cons s ev).2 = (step tty t ev).2 := by
  cases ev with
  | input c =>
    obtain ⟨hdev, hwoken⟩ := input_rep h.dev c
    exact ⟨⟨hdev, h.reader, h.got⟩,
      congrArg (fun woken => if woken then Output.woken else Output.nothing) hwoken⟩
  | read p n dead =>
    simp only [Console.step, h.reader]
    cases hp : t.reader p with
    | none => exact h.reads p ⟨n.toNat, n.toNat, []⟩ (Nat.zero_add _) dead
    | some rd => exact ⟨h, rfl⟩
  | wake p dead =>
    simp only [Console.step, h.reader]
    cases hp : t.reader p with
    | none => exact ⟨h, rfl⟩
    | some rd => exact h.reads p rd (h.got p rd hp) dead

theorem Sim.run (h : Sim s t) (evs : List Event) :
    Sim (run cons s evs).1 (run tty t evs).1 ∧ (run cons s evs).2 = (run tty t evs).2 := by
  induction evs generalizing s t with
  | nil => exact ⟨h, rfl⟩
  | cons ev evs ih =>
    obtain ⟨hstep, hout⟩ := h.step ev
    obtain ⟨hrun, houts⟩ := ih hstep
    exact ⟨hrun, congrArg₂ List.cons hout houts⟩

/-- An event either takes committed bytes from the front or adds some at the end. -/
theorem committed_step (t : State Tty) (ev : Event) :
    (∃ taken, t.dev.committed = taken ++ (step tty t ev).1.dev.committed) ∨
      ∃ added, (step tty t ev).1.dev.committed = t.dev.committed ++ added := by
  cases ev with
  | input c =>
    right
    change ∃ added, (t.dev.input c).1.committed = _
    unfold Tty.input
    generalize (if c = carriageReturn then newline else c) = x
    dsimp only
    -- only the end of a line adds anything
    split_ifs
    · exact ⟨[], (List.append_nil _).symm⟩
    · exact ⟨[], (List.append_nil _).symm⟩
    · exact ⟨[], (List.append_nil _).symm⟩
    · exact ⟨_, rfl⟩
    · exact ⟨[], (List.append_nil _).symm⟩
    · exact ⟨[], (List.append_nil _).symm⟩
  | read p n dead =>
    left
    simp only [Console.step]
    cases t.reader p with
    | none => exact take_suffix _ _ _
    | some rd => exact ⟨[], rfl⟩
  | wake p dead =>
    left
    simp only [Console.step]
    cases t.reader p with
    | none => exact ⟨[], rfl⟩
    | some rd => exact take_suffix _ _ _

def idle (buf : ℕ → UInt8) (k : UInt32) : State ConsBuf := ⟨⟨buf, k, k, k⟩, fun _ => none⟩

def idleTty : State Tty := ⟨⟨[], []⟩, fun _ => none⟩

theorem idle_sim (buf : ℕ → UInt8) (k : UInt32) : Sim (idle buf k) idleTty := by
  have hk : k.toNat = (k.toNat+0)%2^32 := (Nat.mod_eq_of_lt k.toNat_lt).symm
  refine ⟨⟨⟨Window.nil _ _ _, hk, hk⟩, by simp [idleTty], fun _ => rfl⟩, rfl, ?_⟩
  intro p rd hp
  exact absurd hp (by simp [idleTty])

/-- The console is the queue that it is meant to be, wherever its indices start and however often
they wrap around: what the calls of `consoleread` return and which characters wake them are the
same, and the ring holds the bytes of the queue. The two parts together never exceed the ring, a
full console has something to read, and no event changes a committed byte. -/
theorem console_is_queue (buf : ℕ → UInt8) (k : UInt32) (evs : List Event) :
    let s := (run cons (idle buf k) evs).1
    let t := (run tty idleTty evs).1
    (run cons (idle buf k) evs).2 = (run tty idleTty evs).2 ∧ s.reader = t.reader ∧
      Holds s.dev t.dev ∧ t.dev.size ≤ INPUT_BUF_SIZE.toNat ∧
      (t.dev.size = INPUT_BUF_SIZE.toNat → t.dev.committed ≠ []) ∧
      ∀ ev, (∃ taken, t.dev.committed = taken ++ (step tty t ev).1.dev.committed) ∨
        ∃ added, (step tty t ev).1.dev.committed = t.dev.committed ++ added := by
  intro s t
  obtain ⟨hsim, hout⟩ := (idle_sim buf k).run evs
  refine ⟨hout, hsim.reader, hsim.dev.toHolds, hsim.dev.size_le, ?_, committed_step t⟩
  intro hfull hnil
  -- all of a full console is committed
  have hpending := hsim.dev.full hfull
  have hzero : t.dev.size = 0 := by rw [Tty.size, hnil, hpending, List.length_nil]
  rw [hzero] at hfull
  exact absurd hfull (by decide)

end Xv6.Console
