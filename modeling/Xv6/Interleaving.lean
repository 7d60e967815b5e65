import Mathlib.Logic.Function.Basic

/-! A program is a tree of operations on a shared state. Rules say what a process must own to run an
operation and what it owns afterwards; a program that keeps to the rules is typed. If every
operation run by its rules keeps an invariant, then so does every interleaving of typed programs. -/
namespace Interleaving
open Function

variable {Op : Type → Type} {σ Pid Loc Choice α β : Type}

inductive Prog (Op : Type → Type) (α : Type) : Type 1
  | ret (a : α)
  | act {β : Type} (o : Op β) (k : β → Prog Op α)

namespace Prog

def bind : Prog Op α → (α → Prog Op β) → Prog Op β
  | .ret a, f => f a
  | .act o k, f => .act o fun b => (k b).bind f

instance : Monad (Prog Op) where
  pure := .ret
  bind := bind

instance : MonadLift Op (Prog Op) where
  monadLift o := .act o .ret

end Prog

inductive Outcome (σ β : Type) where
  | done (b : β) (s : σ)
  | wait
  | stop (msg : String)

/-- What a process must own for an operation, and what it owns when the operation has returned. -/
structure Rules (Op : Type → Type) (Loc : Type) where
  pre : {β : Type} → Op β → Loc → Prop
  post : {β : Type} → Op β → Loc → β → Loc → Prop

def Typed (R : Rules Op Loc) : Prog Op α → (α → Loc → Prop) → Loc → Prop
  | .ret a, Q, L => Q a L
  | .act o k, Q, L => R.pre o L ∧ ∀ b L', R.post o L b L' → Typed R (k b) Q L'

variable {L : Loc} {Q : α → Loc → Prop}

section Typing
variable {R : Rules Op Loc}

theorem Typed.mono {x : Prog Op α} {Q' : α → Loc → Prop} (h : Typed R x Q L)
    (hQ : ∀ a L, Q a L → Q' a L) : Typed R x Q' L := by
  induction x generalizing L with
  | ret a => exact hQ a L h
  | act o k ih => exact ⟨h.1, fun b L' hpost => ih b (h.2 b L' hpost)⟩

theorem Typed.bind {x : Prog Op α} {f : α → Prog Op β} {Q' : β → Loc → Prop}
    (hx : Typed R x Q L) (hf : ∀ a L, Q a L → Typed R (f a) Q' L) :
    Typed R (x >>= f) Q' L := by
  induction x generalizing L with
  | ret a => exact hf a L hx
  | act o k ih => exact ⟨hx.1, fun b L' hpost => ih b (hx.2 b L' hpost)⟩

theorem Typed.op {o : Op α} (hpre : R.pre o L) :
    Typed R (liftM o : Prog Op α) (fun b L' => R.post o L b L') L :=
  ⟨hpre, fun _ _ hpost => hpost⟩

end Typing

/-- Processes that run programs on a shared state, until one of them stops the machine. -/
structure Config (Op : Type → Type) (σ Pid : Type) where
  state : σ
  prog : Pid → Prog Op Unit
  stopped : Option String

variable [DecidableEq Pid] (exec : Pid → {β : Type} → Op β → Choice → σ → Outcome σ β)

def Config.step (c : Config Op σ Pid) (p : Pid) (x : Choice) : Config Op σ Pid :=
  if c.stopped.isSome then c
  else
    match c.prog p with
    | .ret _ => c
    | .act o k =>
      match exec p o x c.state with
      | .done b s => { c with state := s, prog := update c.prog p (k b) }
      | .wait => c
      | .stop msg => { c with stopped := some msg }

def Config.start (c : Config Op σ Pid) (p : Pid) (x : Prog Op Unit) : Config Op σ Pid :=
  if c.stopped.isSome then c
  else
    match c.prog p with
    | .ret _ => { c with prog := update c.prog p x }
    | .act _ _ => c

/-- The rules are sound for an invariant: an operation that returns keeps it, when the state admits
the operation.  What other processes own changes only when they are dead, that is, when no rule lets
them do anything. -/
structure Sound (R : Rules Op Loc) (Idle Dead : Loc → Prop)
    (Admits : {β : Type} → Op β → σ → Prop) (Inv : σ → (Pid → Loc) → Prop) : Prop where
  dead : ∀ {β : Type} {o : Op β} {L : Loc}, R.pre o L → ¬ Dead L
  step : ∀ {p : Pid} {β : Type} {o : Op β} {x : Choice} {s s' : σ} {b : β} {Ls : Pid → Loc},
    Inv s Ls → R.pre o (Ls p) → Admits o s → exec p o x s = .done b s' →
    ∃ Ls', R.post o (Ls p) b (Ls' p) ∧ Inv s' Ls' ∧
      ∀ q, q ≠ p → Ls' q = Ls q ∨ Dead (Ls q) ∧ Idle (Ls' q)

def WellTyped (R : Rules Op Loc) (Idle : Loc → Prop) (Inv : σ → (Pid → Loc) → Prop)
    (c : Config Op σ Pid) : Prop :=
  ∃ Ls, Inv c.state Ls ∧ ∀ p, Typed R (c.prog p) (fun _ L => Idle L) (Ls p)

def Config.Admitted (Admits : {β : Type} → Op β → σ → Prop) (c : Config Op σ Pid) (p : Pid) :
    Prop :=
  match c.prog p with
  | .ret _ => True
  | .act o _ => Admits o c.state

variable {exec} {R : Rules Op Loc} {Idle Dead : Loc → Prop}
  {Admits : {β : Type} → Op β → σ → Prop} {Inv : σ → (Pid → Loc) → Prop}

variable {c : Config Op σ Pid}

theorem WellTyped.step (hsound : Sound exec R Idle Dead Admits Inv)
    (h : WellTyped R Idle Inv c) {p : Pid} (hadmits : c.Admitted Admits p) (x : Choice) :
    WellTyped R Idle Inv (c.step exec p x) := by
  obtain ⟨Ls, hinv, htyped⟩ := h
  unfold Config.step
  by_cases hstop : c.stopped.isSome = true
  · rw [if_pos hstop]
    exact ⟨Ls, hinv, htyped⟩
  rw [if_neg hstop]
  have hp := htyped p
  unfold Config.Admitted at hadmits
  cases hprog : c.prog p with
  | ret u => exact ⟨Ls, hinv, htyped⟩
  | act o k =>
    rw [hprog] at hp hadmits
    dsimp only at hadmits ⊢
    cases hexec : exec p o x c.state with
    | wait | stop => exact ⟨Ls, hinv, htyped⟩
    | done b s =>
      obtain ⟨Ls', hpost, hinv', hother⟩ := hsound.step hinv hp.1 hadmits hexec
      refine ⟨Ls', hinv', ?_⟩
      intro q
      dsimp only
      by_cases hq : q = p
      · subst hq
        rw [update_self]
        exact hp.2 b (Ls' q) hpost
      · rw [update_of_ne hq]
        rcases hother q hq with hsame | ⟨hdead, hidle⟩
        · rw [hsame]
          exact htyped q
        · -- a dead process has no operation left, so its program has ended
          have hq' := htyped q
          cases hprog' : c.prog q with
          | ret u => exact hidle
          | act o' k' =>
            rw [hprog'] at hq'
            exact absurd hdead (hsound.dead hq'.1)

/-- A process whose program has ended may start another one that is typed for what it owns. -/
theorem WellTyped.start (h : WellTyped R Idle Inv c) {p : Pid} {x : Prog Op Unit}
    (hx : ∀ Ls, Inv c.state Ls → Idle (Ls p) →
      ∃ Ls', Inv c.state Ls' ∧ (∀ q, q ≠ p → Ls' q = Ls q) ∧
        Typed R x (fun _ L => Idle L) (Ls' p)) :
    WellTyped R Idle Inv (c.start p x) := by
  obtain ⟨Ls, hinv, htyped⟩ := h
  unfold Config.start
  by_cases hstop : c.stopped.isSome = true
  · rw [if_pos hstop]
    exact ⟨Ls, hinv, htyped⟩
  rw [if_neg hstop]
  have hp := htyped p
  cases hprog : c.prog p with
  | act o k => exact ⟨Ls, hinv, htyped⟩
  | ret u =>
    rw [hprog] at hp
    obtain ⟨Ls', hinv', hother, hx'⟩ := hx Ls hinv hp
    refine ⟨Ls', hinv', ?_⟩
    intro q
    dsimp only
    by_cases hq : q = p
    · subst hq
      rw [update_self]
      exact hx'
    · rw [update_of_ne hq, hother q hq]
      exact htyped q

end Interleaving
