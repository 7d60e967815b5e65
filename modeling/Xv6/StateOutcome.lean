import Mathlib.Logic.Function.Basic

/-! Weakest preconditions for state-passing code that can stop early: `post x s Q E` says that `x`,
started in `s`, returns with `Q` or stops in a state that satisfies `E`, which is what the outside
world sees next. -/
namespace StateOutcome

universe u

variable {ε σ α β : Type u}

def post (x : EStateM ε σ α) (s : σ) (Q : α → σ → Prop) (E : ε → σ → Prop) : Prop :=
  match x s with
  | .ok a s' => Q a s'
  | .error e s' => E e s'

@[simp] theorem post_bind (x : EStateM ε σ α) (f : α → EStateM ε σ β) (s : σ)
    (Q : β → σ → Prop) (E : ε → σ → Prop) :
    post (x >>= f) s Q E ↔ post x s (fun a s' => post (f a) s' Q E) E := by
  change (match EStateM.bind x f s with | .ok a s' => Q a s' | .error e s' => E e s') ↔ _
  unfold EStateM.bind post
  cases x s <;> rfl

@[simp] theorem post_pure (a : α) (s : σ) (Q : α → σ → Prop) (E : ε → σ → Prop) :
    post (pure a : EStateM ε σ α) s Q E ↔ Q a s := Iff.rfl

@[simp] theorem post_map (f : α → β) (x : EStateM ε σ α) (s : σ)
    (Q : β → σ → Prop) (E : ε → σ → Prop) :
    post (f <$> x) s Q E ↔ post x s (fun a s' => Q (f a) s') E := by
  change (match EStateM.map f x s with | .ok a s' => Q a s' | .error e s' => E e s') ↔ _
  unfold EStateM.map post
  cases x s <;> rfl

@[simp] theorem post_get (s : σ) (Q : σ → σ → Prop) (E : ε → σ → Prop) :
    post (get : EStateM ε σ σ) s Q E ↔ Q s s := Iff.rfl

@[simp] theorem post_modify (f : σ → σ) (s : σ) (Q : PUnit → σ → Prop) (E : ε → σ → Prop) :
    post (modify f : EStateM ε σ PUnit) s Q E ↔ Q ⟨⟩ (f s) := Iff.rfl

@[simp] theorem post_throw (e : ε) (s : σ) (Q : α → σ → Prop) (E : ε → σ → Prop) :
    post (throw e : EStateM ε σ α) s Q E ↔ E e s := Iff.rfl

/-- What holds where the code stops early, when it never does. -/
abbrev never : ε → σ → Prop := fun _ _ => False

variable {E E' : ε → σ → Prop} {Q Q' : α → σ → Prop} {s : σ} {x : EStateM ε σ α}

theorem post_mono
    (h : post x s Q E) (hQ : ∀ a s', Q a s' → Q' a s') (hE : ∀ e s', E e s' → E' e s') :
    post x s Q' E' := by
  unfold post at h ⊢
  cases hx : x s with
  | ok a s' => rw [hx] at h; exact hQ a s' h
  | error e s' => rw [hx] at h; exact hE e s' h

theorem post_imp (h : post x s Q E) (hQ : ∀ a s', Q a s' → Q' a s') : post x s Q' E :=
  post_mono h hQ fun _ _ he => he

theorem post_errors (h : post x s Q E) (hE : ∀ e s', E e s' → E' e s') : post x s Q E' :=
  post_mono h (fun _ _ hq => hq) hE

theorem post_safe (h : post x s Q never) : post x s Q E :=
  post_errors h fun _ _ => False.elim

theorem post_true (h : post x s Q E) : post x s Q fun _ _ => True :=
  post_errors h fun _ _ _ => trivial

/-- A specification used in the middle of a computation: what it promises is what the rest
of the computation may assume. -/
theorem post_bind_of {f : α → EStateM ε σ β}
    {P : α → σ → Prop} {Q : β → σ → Prop} (hx : post x s P E)
    (hf : ∀ a s', P a s' → post (f a) s' Q E) : post (x >>= f) s Q E :=
  (post_bind x f s Q E).mpr (post_imp hx hf)

theorem post_and (h : post x s Q E) (h' : post x s Q' E') :
    post x s (fun a s' => Q a s' ∧ Q' a s') (fun e s' => E e s' ∧ E' e s') := by
  unfold post at h h' ⊢
  cases hx : x s with
  | ok | error => rw [hx] at h h'; exact ⟨h,h'⟩

theorem not_post_false (x : EStateM ε σ α) (s : σ) : ¬post x s (fun _ _ => False) never := by
  unfold post
  cases x s <;> exact id

theorem post_self (x : EStateM ε σ α) (s : σ) :
    post x s (fun a s' => x s = .ok a s') (fun e s' => x s = .error e s') := by
  unfold post
  cases x s <;> rfl

theorem post_ok {s' : σ} {a : α} (h : post x s Q E) (hx : x s = .ok a s') : Q a s' := by
  unfold post at h
  rwa [hx] at h

theorem post_error {s' : σ} {e : ε} (h : post x s Q E) (hx : x s = .error e s') : E e s' := by
  unfold post at h
  rwa [hx] at h

theorem exists_ok (h : post x s Q never) : ∃ a s', x s = .ok a s' ∧ Q a s' := by
  unfold post at h
  cases hx : x s with
  | ok a s' =>
    rw [hx] at h
    exact ⟨a, s', rfl, h⟩
  | error e s' =>
    rw [hx] at h
    exact h.elim

end StateOutcome
