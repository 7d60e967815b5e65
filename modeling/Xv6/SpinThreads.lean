import Mathlib.Data.Set.Insert

/-! Threads that share data and spin locks. A thread is a program of atomic steps: taking a lock,
giving it back, one access to the shared data. A proof outline gives each thread a mode beside the
locks it holds, an invariant of the data and of all modes, and for each step of each program the
mode after it. The invariant may also speak of the data that the run has come through. -/
namespace Xv6

open Function

variable {T Λ ι D α β γ M : Type}

/-- A program with locks of type `Λ` and data of type `D`. An access to the data may depend on
what the environment chooses, and may be impossible, which stops the thread. -/
inductive Code (Λ ι D : Type) : Type → Type 1 where
  | ret {α : Type} (a : α) : Code Λ ι D α
  | acquire {α : Type} (l : Λ) (k : Code Λ ι D α) : Code Λ ι D α
  | release {α : Type} (l : Λ) (k : Code Λ ι D α) : Code Λ ι D α
  | data {α β : Type} (f : ι → D → Option (β × D)) (k : β → Code Λ ι D α) : Code Λ ι D α
  /-- Repeats `f` from `c` on until it answers `inr`. -/
  | iter {α β γ : Type} (f : γ → Code Λ ι D (γ ⊕ β)) (c : γ) (k : β → Code Λ ι D α) : Code Λ ι D α

namespace Code

def bind : Code Λ ι D α → (α → Code Λ ι D β) → Code Λ ι D β
  | .ret a, g => g a
  | .acquire l k, g => .acquire l (bind k g)
  | .release l k, g => .release l (bind k g)
  | .data f k, g => .data f fun b => bind (k b) g
  | .iter f c k, g => .iter f c fun b => bind (k b) g

instance : Monad (Code Λ ι D) where
  pure := .ret
  bind := bind

/-- The single steps, and a loop, as programs. -/
def lock (l : Λ) : Code Λ ι D Unit := .acquire l (.ret ())
def unlock (l : Λ) : Code Λ ι D Unit := .release l (.ret ())
def access (f : ι → D → Option (β × D)) : Code Λ ι D β := .data f .ret
def loop (f : γ → Code Λ ι D (γ ⊕ β)) (c : γ) : Code Λ ι D β := .iter f c .ret

/-- An access that only reads, and one that only writes. -/
def read (f : D → β) : Code Λ ι D β := access fun _ d => some (f d, d)
def write (f : D → D) : Code Λ ι D Unit := access fun _ d => some ((), f d)

/-- One round of a loop, then the rest. -/
def unroll (f : γ → Code Λ ι D (γ ⊕ β)) (c : γ) (k : β → Code Λ ι D α) : Code Λ ι D α :=
  bind (f c) fun r => r.elim (fun c' => .iter f c' k) k

theorem bind_assoc {δ : Type} (c : Code Λ ι D α) (g : α → Code Λ ι D β) (h : β → Code Λ ι D δ) :
    (c.bind g).bind h = c.bind fun r => (g r).bind h := by
  induction c with
  | ret a => rfl
  | acquire _ _ ih | release _ _ ih | data _ _ ih | iter _ _ _ _ ih => simp only [bind, ih]

theorem bind_unroll (f : γ → Code Λ ι D (γ ⊕ β)) (c : γ) (k : β → Code Λ ι D α)
    {δ : Type} (g : α → Code Λ ι D δ) :
    (unroll f c k).bind g = unroll f c fun b => (k b).bind g := by
  rw [unroll, bind_assoc]
  congr 1
  funext r
  cases r <;> rfl

/-- The program takes and gives back only locks in `L`, and changes the data only as `R` says. -/
def Uses (L : Set Λ) (R : D → D → Prop) : {α : Type} → Code Λ ι D α → Prop
  | _, .ret _ => True
  | _, .acquire l k | _, .release l k => l ∈ L ∧ Uses L R k
  | _, .data f k => (∀ i d b d', f i d = some (b, d') → R d d') ∧ ∀ b, Uses L R (k b)
  | _, .iter f _ k => (∀ c, Uses L R (f c)) ∧ ∀ b, Uses L R (k b)

namespace Uses
variable {L : Set Λ} {R : D → D → Prop} {c : Code Λ ι D α} {k : α → Code Λ ι D β}

theorem bind (hc : c.Uses L R) (hk : ∀ r, (k r).Uses L R) : (c >>= k).Uses L R := by
  change (c.bind k).Uses L R
  induction c with
  | ret a => exact hk a
  | acquire l c ih | release l c ih => exact ⟨hc.1, ih hc.2 hk⟩
  | data f c ih => exact ⟨hc.1, fun b => ih b (hc.2 b) hk⟩
  | iter f a c _ ih => exact ⟨hc.1, fun b => ih b (hc.2 b) hk⟩

theorem lock {l : Λ} (hl : l ∈ L) : (Code.lock l : Code Λ ι D Unit).Uses L R := ⟨hl, trivial⟩

theorem unlock {l : Λ} (hl : l ∈ L) : (Code.unlock l : Code Λ ι D Unit).Uses L R := ⟨hl, trivial⟩

theorem access {f : ι → D → Option (β × D)} (hf : ∀ i d b d', f i d = some (b, d') → R d d') :
    (Code.access f : Code Λ ι D β).Uses L R := ⟨hf, fun _ => trivial⟩

theorem read (hR : ∀ d, R d d) (f : D → β) : (Code.read f : Code Λ ι D β).Uses L R := by
  refine access fun i d b d' h => ?_
  cases h
  exact hR d

theorem write {f : D → D} (hf : ∀ d, R d (f d)) : (Code.write f : Code Λ ι D Unit).Uses L R := by
  refine access fun i d b d' h => ?_
  cases h
  exact hf d

theorem loop {f : γ → Code Λ ι D (γ ⊕ β)} (hf : ∀ c, (f c).Uses L R) (c : γ) :
    (Code.loop f c).Uses L R := ⟨hf, fun _ => trivial⟩

theorem unroll {f : γ → Code Λ ι D (γ ⊕ β)} {c : γ} {k : β → Code Λ ι D α}
    (hf : ∀ c, (f c).Uses L R) (hk : ∀ b, (k b).Uses L R) : (Code.unroll f c k).Uses L R := by
  refine bind (hf c) fun r => ?_
  cases r with
  | inl c' => exact ⟨hf, hk⟩
  | inr b => exact hk b

end Uses
end Code

/-- The data, the holder of each lock, and what each thread has still to do. -/
structure Pool (T Λ ι D : Type) where
  data : D
  lock : Λ → Option T
  code : T → Code Λ ι D Unit

variable [DecidableEq T]

namespace Pool

section
variable [DecidableEq Λ]

/-- A step of thread `t`. Nobody else can give back a lock that `t` holds. -/
def step (t : T) (i : ι) (w : Pool T Λ ι D) : Option (Pool T Λ ι D) :=
  match w.code t with
  | .ret _ => none
  | .acquire l k =>
    if w.lock l = none then
      some ⟨w.data, update w.lock l (some t), update w.code t k⟩
    else none
  | .release l k =>
    if w.lock l = some t then
      some ⟨w.data, update w.lock l none, update w.code t k⟩
    else none
  | .data f k => (f i w.data).map fun r => ⟨r.2, w.lock, update w.code t (k r.1)⟩
  | .iter f c k => some ⟨w.data, w.lock, update w.code t (Code.unroll f c k)⟩

/-- The steps of a schedule, one after the other, as long as they meet `ok`. -/
def exec (ok : T → D → (Λ → Option T) → D → Prop) [∀ t d l d', Decidable (ok t d l d')]
    (w : Pool T Λ ι D) : List (T × ι) → Option (Pool T Λ ι D)
  | [] => some w
  | (t, i) :: s => (w.step t i).bind fun w' =>
    if ok t w.data w.lock w'.data then exec ok w' s else none

/-- The pools that the threads can get to by steps that all meet `ok`; it sees the thread, the
data and the locks before the step, and the data after it. -/
inductive Run (ok : T → D → (Λ → Option T) → D → Prop) (w0 : Pool T Λ ι D) : Pool T Λ ι D → Prop
  | start : Run ok w0 w0
  | step {w w' : Pool T Λ ι D} {t : T} {i : ι} (hr : Run ok w0 w) (hs : w.step t i = some w')
      (hok : ok t w.data w.lock w'.data) : Run ok w0 w'

/-- The same, with the pools that the run has come through, latest first. -/
inductive Path (ok : T → D → (Λ → Option T) → D → Prop) (w0 : Pool T Λ ι D) :
    List (Pool T Λ ι D) → Pool T Λ ι D → Prop
  | start : Path ok w0 [w0] w0
  | step {ws : List (Pool T Λ ι D)} {w w' : Pool T Λ ι D} {t : T} {i : ι} (hp : Path ok w0 ws w)
      (hs : w.step t i = some w') (hok : ok t w.data w.lock w'.data) : Path ok w0 (w' :: ws) w'

/-- Any step is allowed. -/
def anyStep : T → D → (Λ → Option T) → D → Prop := fun _ _ _ _ => True

variable {w0 : Pool T Λ ι D}

theorem Run.mono {ok ok' : T → D → (Λ → Option T) → D → Prop} {w : Pool T Λ ι D}
    (h : ∀ t d l d', ok t d l d' → ok' t d l d') (hr : Run ok w0 w) : Run ok' w0 w := by
  induction hr with
  | start => exact .start
  | step _ hs hok ih => exact .step ih hs (h _ _ _ _ hok)

section
variable {ok : T → D → (Λ → Option T) → D → Prop} {ws : List (Pool T Λ ι D)} {v w : Pool T Λ ι D}

theorem Path.run (h : Path ok w0 ws w) : Run ok w0 w := by
  induction h with
  | start => exact .start
  | step _ hs hok ih => exact .step ih hs hok

theorem Run.path (h : Run ok w0 w) : ∃ ws, Path ok w0 ws w := by
  induction h with
  | start => exact ⟨_, .start⟩
  | step _ hs hok ih =>
    obtain ⟨ws, hp⟩ := ih
    exact ⟨_, .step hp hs hok⟩

/-- Every pool that a run has come through is one it can get to. -/
theorem Path.reached (h : Path ok w0 ws w) (hv : v ∈ ws) : Run ok w0 v := by
  induction h with
  | start =>
    rw [List.mem_singleton.mp hv]
    exact .start
  | step hp hs hok ih =>
    rcases List.mem_cons.mp hv with rfl | hv
    · exact .step hp.run hs hok
    · exact ih hv

theorem Path.last_mem (h : Path ok w0 ws w) : w ∈ ws := by
  cases h with
  | start | step => exact List.mem_cons_self

end

instance : ∀ (t : T) (d : D) (l : Λ → Option T) (d' : D), Decidable (anyStep t d l d') :=
  fun _ _ _ _ => .isTrue trivial

variable {ok : T → D → (Λ → Option T) → D → Prop} [∀ t d l d', Decidable (ok t d l d')]

theorem Run.of_exec (s : List (T × ι)) :
    ∀ {w w' : Pool T Λ ι D}, Run ok w0 w → w.exec ok s = some w' → Run ok w0 w' := by
  induction s with
  | nil =>
    intro w w' hr h
    rw [exec, Option.some.injEq] at h
    exact h ▸ hr
  | cons ti s ih =>
    intro w w' hr h
    obtain ⟨w1, hw1, h⟩ := Option.bind_eq_some_iff.mp h
    obtain ⟨hok, h⟩ := Option.ite_none_right_eq_some.mp h
    exact ih (.step hr hw1 hok) h

variable (ok) in
theorem Run.exists_of_exec (w0 : Pool T Λ ι D) (s : List (T × ι)) (P : Pool T Λ ι D → Bool)
    (h : (w0.exec ok s).any P = true) : ∃ w, Run ok w0 w ∧ P w = true := by
  obtain ⟨w, hw, hP⟩ := (Option.any_eq_true _ _).mp h
  exact ⟨w, Run.of_exec s .start hw, hP⟩

end

/-- The data that a run has come through. -/
def visited (ws : List (Pool T Λ ι D)) : Set D := {d | ∃ v ∈ ws, v.data = d}

omit [DecidableEq T] in
theorem visited_cons (w : Pool T Λ ι D) (ws : List (Pool T Λ ι D)) :
    visited (w :: ws) = insert w.data (visited ws) := by
  ext d
  simp [visited, eq_comm]

omit [DecidableEq T] in
theorem insert_visited {w : Pool T Λ ι D} {ws : List (Pool T Λ ι D)} (hw : w ∈ ws) :
    insert w.data (visited ws) = visited ws :=
  Set.insert_eq_of_mem ⟨w, hw, rfl⟩

end Pool

/-- A proof outline: an invariant of the data that the run has come through, the data as it is, and
what each thread holds and is up to, kept by steps that meet `ok`. -/
structure Outline (T Λ D M : Type) where
  ok : T → D → (Λ → Option T) → D → Prop
  inv : Set D → D → (T → Set Λ × M) → Prop

/-- The locks are held by the threads that say so. -/
def Held (lock : Λ → Option T) (g : T → Set Λ × M) : Prop :=
  ∀ l t, lock l = some t ↔ l ∈ (g t).1

variable {g : T → Set Λ × M}

omit [DecidableEq T] in
theorem Held.free_iff {lock : Λ → Option T} (h : Held lock g) (l : Λ) :
    lock l = none ↔ ∀ t, l ∉ (g t).1 := by
  rw [Option.eq_none_iff_forall_ne_some]
  exact forall_congr' fun t => not_congr (h l t)

omit [DecidableEq T] in
theorem Held.unique {lock : Λ → Option T} (h : Held lock g) {l : Λ} {t u : T}
    (ht : l ∈ (g t).1) (hu : l ∈ (g u).1) : t = u :=
  Option.some.inj (((h l t).mpr ht).symm.trans ((h l u).mpr hu))

namespace Outline

variable (O : Outline T Λ D M)

/-- The first `n` steps of a program of thread `t` that holds `a.1` and is in mode `a.2` follow
the outline; `Q` is what holds when it has returned by then. -/
def SafeFor (t : T) (Q : α → Set Λ × M → Prop) : ℕ → Set Λ × M → Code Λ ι D α → Prop
  | 0, _, _ => True
  | _+1, a, .ret r => Q r a
  | n+1, a, .acquire l k =>
    ∀ {past} d lock g, O.inv past d g → Held lock g → g t = a → (∀ u, l ∉ (g u).1) →
      ∃ m, O.inv past d (update g t (insert l a.1, m)) ∧ SafeFor t Q n (insert l a.1, m) k
  | n+1, a, .release l k =>
    ∀ {past} d lock g, O.inv past d g → Held lock g → g t = a → l ∈ a.1 →
      ∃ m, O.inv past d (update g t (a.1 \ {l}, m)) ∧ SafeFor t Q n (a.1 \ {l}, m) k
  | n+1, a, .data f k =>
    ∀ {past} i d lock g b d', O.inv past d g → Held lock g → g t = a → f i d = some (b, d') →
      O.ok t d lock d' →
      ∃ m, O.inv (insert d' past) d' (update g t (a.1, m)) ∧ SafeFor t Q n (a.1, m) (k b)
  | n+1, a, .iter f c k => SafeFor t Q n a (Code.unroll f c k)

/-- Every step of the program follows the outline. -/
def Safe (t : T) (a : Set Λ × M) (c : Code Λ ι D α) (Q : α → Set Λ × M → Prop) : Prop :=
  ∀ n, O.SafeFor t Q n a c

/-- The same, of a program that always returns in mode `a'`. -/
abbrev Leads (t : T) (a : Set Λ × M) (c : Code Λ ι D α) (a' : Set Λ × M) : Prop :=
  O.Safe t a c fun _ b => b = a'

abbrev Keeps (t : T) (a : Set Λ × M) (c : Code Λ ι D α) : Prop := O.Leads t a c a

variable {O} {t : T} {a : Set Λ × M}

variable {Q' : α → Set Λ × M → Prop} {Q : β → Set Λ × M → Prop} {k : α → Code Λ ι D β}
  {c : Code Λ ι D α} {f : γ → Code Λ ι D (γ ⊕ β)} {g : T → Set Λ × M} {w : Pool T Λ ι D}

theorem SafeFor.mono {Q : α → Set Λ × M → Prop} (hQ : ∀ r a, Q r a → Q' r a) (n : ℕ) :
    ∀ {m : ℕ} {a : Set Λ × M} {c : Code Λ ι D α}, m ≤ n → O.SafeFor t Q n a c →
      O.SafeFor t Q' m a c := by
  induction n with
  | zero =>
    intro m a c hm _
    obtain rfl : m = 0 := by omega
    trivial
  | succ n ih =>
    intro m a c hm h
    rcases m with _ | m
    · trivial
    have hm : m ≤ n := by omega
    cases c with
    | ret r => exact hQ r a h
    | acquire | release =>
      intro past d lock g hi hl hg hf
      obtain ⟨x, hi, h⟩ := h d lock g hi hl hg hf
      exact ⟨x, hi, ih hm h⟩
    | data f k =>
      intro past i d lock g b d' hi hl hg hf hok
      obtain ⟨x, hi, h⟩ := h i d lock g b d' hi hl hg hf hok
      exact ⟨x, hi, ih hm h⟩
    | iter f c k => exact ih (c := Code.unroll f c k) hm h

theorem SafeFor.bind (n : ℕ) : ∀ {a : Set Λ × M} {c : Code Λ ι D α},
      O.SafeFor t (fun r a' => O.SafeFor t Q n a' (k r)) n a c → O.SafeFor t Q n a (c.bind k) := by
  induction n with
  | zero => intros; trivial
  | succ n ih =>
    -- What is left after a step has one step less to be safe for.
    have hless {a : Set Λ × M} {c : Code Λ ι D α}
        (h : O.SafeFor t (fun r a' => O.SafeFor t Q (n+1) a' (k r)) n a c) :
        O.SafeFor t Q n a (c.bind k) :=
      ih (SafeFor.mono (fun _ _ h => SafeFor.mono (fun _ _ h => h) (n+1) (by omega) h) n le_rfl h)
    intro a c h
    cases c with
    | ret r => exact h
    | acquire | release =>
      intro past d lock g hi hl hg hf
      obtain ⟨x, hi, h⟩ := h d lock g hi hl hg hf
      exact ⟨x, hi, hless h⟩
    | data f c =>
      intro past i d lock g b d' hi hl hg hf hok
      obtain ⟨x, hi, h⟩ := h i d lock g b d' hi hl hg hf hok
      exact ⟨x, hi, hless h⟩
    | iter f c c' =>
      have h := hless (c := Code.unroll f c c') h
      rwa [Code.bind_unroll] at h

/-! The rules, for all steps. -/

theorem Safe.ret {Q : α → Set Λ × M → Prop} {r : α} (h : Q r a) :
    O.Safe t a (pure r : Code Λ ι D α) Q := by
  intro n
  rcases n with _ | n
  · trivial
  · exact h

theorem Safe.mono {Q : α → Set Λ × M → Prop} (h : O.Safe t a c Q)
    (hQ : ∀ r a, Q r a → Q' r a) : O.Safe t a c Q' :=
  fun n => SafeFor.mono hQ n le_rfl (h n)

theorem Safe.bind (h : O.Safe t a c fun r a' => O.Safe t a' (k r) Q) : O.Safe t a (c >>= k) Q :=
  fun n => SafeFor.bind n (SafeFor.mono (fun _ _ h => h n) n le_rfl (h n))

theorem Safe.andThen {a' : Set Λ × M} (h : O.Leads t a c a') (hk : ∀ r, O.Safe t a' (k r) Q) :
    O.Safe t a (c >>= k) Q :=
  .bind (h.mono fun r _ hb => hb ▸ hk r)

theorem Safe.lock {Q : Unit → Set Λ × M → Prop} {l : Λ}
    (h : ∀ {past} d lock g, O.inv past d g → Held lock g → g t = a → (∀ u, l ∉ (g u).1) →
      ∃ m, O.inv past d (update g t (insert l a.1, m)) ∧ Q () (insert l a.1, m)) :
    O.Safe t a (Code.lock l : Code Λ ι D Unit) Q := by
  intro n
  rcases n with _ | n
  · trivial
  intro past d lock g hi hl hg hf
  obtain ⟨m, hi, hq⟩ := h d lock g hi hl hg hf
  exact ⟨m, hi, Safe.ret hq n⟩

theorem Safe.unlock {Q : Unit → Set Λ × M → Prop} {l : Λ}
    (h : ∀ {past} d lock g, O.inv past d g → Held lock g → g t = a → l ∈ a.1 →
      ∃ m, O.inv past d (update g t (a.1 \ {l}, m)) ∧ Q () (a.1 \ {l}, m)) :
    O.Safe t a (Code.unlock l : Code Λ ι D Unit) Q := by
  intro n
  rcases n with _ | n
  · trivial
  intro past d lock g hi hl hg hf
  obtain ⟨m, hi, hq⟩ := h d lock g hi hl hg hf
  exact ⟨m, hi, Safe.ret hq n⟩

theorem Safe.access {f : ι → D → Option (β × D)}
    (h : ∀ {past} i d lock g b d', O.inv past d g → Held lock g → g t = a → f i d = some (b, d') →
      O.ok t d lock d' → ∃ m, O.inv (insert d' past) d' (update g t (a.1, m)) ∧ Q b (a.1, m)) :
    O.Safe t a (Code.access f : Code Λ ι D β) Q := by
  intro n
  rcases n with _ | n
  · trivial
  intro past i d lock g b d' hi hl hg hf hok
  obtain ⟨m, hi, hq⟩ := h i d lock g b d' hi hl hg hf hok
  exact ⟨m, hi, Safe.ret hq n⟩

theorem Safe.loop (P : γ → Set Λ × M → Prop)
    (h : ∀ c a, P c a → O.Safe t a (f c) fun r a' => r.elim (P · a') (Q · a')) {c : γ}
    (hc : P c a) : O.Safe t a (Code.loop f c) Q := by
  intro n
  induction n generalizing c a with
  | zero => trivial
  | succ n ih =>
    refine SafeFor.bind n (SafeFor.mono ?_ n le_rfl (h c a hc n))
    intro r a' hr
    cases r with
    | inl c' => exact ih hr
    | inr b => exact Safe.ret hr n

theorem Safe.loop_same {c : γ} (h : ∀ c, O.Keeps t a (f c)) :
    O.Keeps t a (Code.loop f c) := by
  refine Safe.loop (fun _ a' => a' = a) (fun c a' ha => ?_) rfl
  subst ha
  refine (h c).mono fun r a' ha => ?_
  cases r with
  | inl | inr => exact ha

/-- In mode `x`, what thread `t` does with the locks in `L`, and changes of the data as in `R`,
matter to nobody. -/
structure Indifferent (O : Outline T Λ D M) (t : T) (L : Set Λ) (R : D → D → Prop) (x : M) :
    Prop where
  relock : ∀ {past d g H}, O.inv past d g → (g t).2 = x → (∀ l ∉ L, l ∈ H ↔ l ∈ (g t).1) →
    O.inv past d (update g t (H, x))
  change : ∀ {past d d' g}, O.inv past d g → (g t).2 = x → R d d' → O.inv (insert d' past) d' g

/-- A program that does nothing else keeps the mode, and the other locks. -/
theorem Indifferent.safe {L : Set Λ} {R : D → D → Prop} {x : M} (h : O.Indifferent t L R x)
    {H : Set Λ} (hc : c.Uses L R) :
    O.Safe t (H, x) c fun _ a => a.2 = x ∧ ∀ l ∉ L, l ∈ a.1 ↔ l ∈ H := by
  intro n
  -- The locks outside `L` are those that the program began with.
  suffices hs : ∀ (H' : Set Λ) (c : Code Λ ι D α), c.Uses L R → (∀ l ∉ L, l ∈ H' ↔ l ∈ H) →
      O.SafeFor t (fun _ a => a.2 = x ∧ ∀ l ∉ L, l ∈ a.1 ↔ l ∈ H) n (H', x) c from
    hs H c hc fun _ _ => Iff.rfl
  induction n with
  | zero => exact fun _ _ _ _ => trivial
  | succ n ih =>
    intro H' c hc hH
    cases c with
    | ret r => exact ⟨rfl, hH⟩
    | acquire l k =>
      intro past d lock g hi _ hg _
      have hkeep (l' : Λ) (hl' : l' ∉ L) : l' ∈ insert l H' ↔ l' ∈ H' :=
        Set.mem_insert_iff.trans (or_iff_right fun he => hl' (he ▸ hc.1))
      refine ⟨x, h.relock hi (by rw [hg]) fun l' hl' => ?_, ih _ k hc.2 fun l' hl' => ?_⟩
      · rw [hg]
        exact hkeep l' hl'
      · exact (hkeep l' hl').trans (hH l' hl')
    | release l k =>
      intro past d lock g hi _ hg _
      have hkeep (l' : Λ) (hl' : l' ∉ L) : l' ∈ H' \ {l} ↔ l' ∈ H' :=
        and_iff_left fun he => hl' (Set.mem_singleton_iff.mp he ▸ hc.1)
      refine ⟨x, h.relock hi (by rw [hg]) fun l' hl' => ?_, ih _ k hc.2 fun l' hl' => ?_⟩
      · rw [hg]
        exact hkeep l' hl'
      · exact (hkeep l' hl').trans (hH l' hl')
    | data f k =>
      intro past i d lock g b d' hi _ hg hf _
      refine ⟨x, ?_, ih _ (k b) (hc.2 b) hH⟩
      have hg' : update g t (H', x) = g := by rw [← hg, update_eq_self]
      rw [hg']
      exact h.change hi (by rw [hg]) (hc.1 i d b d' hf)
    | iter f a k => exact ih _ _ (Code.Uses.unroll hc.1 hc.2) hH

/-- Some modes fit what a run has come through, the data and the locks of the pool it has got to,
and the programs for `n` steps. -/
def FitsFor (O : Outline T Λ D M) (n : ℕ) (ws : List (Pool T Λ ι D)) (w : Pool T Λ ι D) : Prop :=
  ∃ g, O.inv (Pool.visited ws) w.data g ∧ Held w.lock g ∧
    ∀ t, O.SafeFor t (fun _ _ => True) n (g t) (w.code t)

/-- Thread `t` has made a step to `k`, after which it holds `a.1` and is in mode `a.2`. -/
private theorem safeFor_update {code : T → Code Λ ι D Unit} {n : ℕ}
    (h : ∀ t, O.SafeFor t (fun _ _ => True) (n+1) (g t) (code t)) {k : Code Λ ι D Unit}
    (hk : O.SafeFor t (fun _ _ => True) n a k) (u : T) :
    O.SafeFor u (fun _ _ => True) n (update g t a u) (update code t k u) := by
  by_cases hu : u = t
  · subst hu
    rw [update_self, update_self]
    exact hk
  · rw [update_of_ne hu, update_of_ne hu]
    exact SafeFor.mono (fun _ _ h => h) (n+1) (by omega) (h u)

section
variable [DecidableEq Λ]

private theorem held_update {lock : Λ → Option T} (hl : Held lock g) {l : Λ}
    {o : Option T} {S : Set Λ} {m : M} (ho : ∀ u, o = some u ↔ l ∈ (update g t (S, m) u).1)
    (hS : ∀ l', l' ≠ l → (l' ∈ S ↔ l' ∈ (g t).1)) :
    Held (update lock l o) (update g t (S, m)) := by
  intro l' u
  by_cases hl' : l' = l
  · subst hl'
    rw [update_self, ho]
  rw [update_of_ne hl', hl l' u]
  by_cases hu : u = t
  · subst hu
    rw [update_self, hS l' hl']
  · rw [update_of_ne hu]

theorem FitsFor.step {n : ℕ} {w' : Pool T Λ ι D} {ws : List (Pool T Λ ι D)} {i : ι}
    (h : O.FitsFor (n+1) ws w) (hw : w ∈ ws) (hs : w.step t i = some w')
    (hok : O.ok t w.data w.lock w'.data) : O.FitsFor n (w' :: ws) w' := by
  obtain ⟨g, hi, hl, hc⟩ := h
  have ht := hc t
  rw [Pool.step] at hs
  cases hcode : w.code t with
  | ret r => simp only [hcode, reduceCtorEq] at hs
  | acquire l k =>
    simp only [hcode, Option.ite_none_right_eq_some, Option.some.injEq] at hs
    rw [hcode] at ht
    obtain ⟨hfree, rfl⟩ := hs
    have hnone := (hl.free_iff l).mp hfree
    obtain ⟨m, hi, hk⟩ := ht _ w.lock g hi hl rfl hnone
    refine ⟨_, ?_, held_update hl ?_ fun l' hl' => by simp [hl'], safeFor_update hc hk⟩
    · rw [Pool.visited_cons, Pool.insert_visited hw]
      exact hi
    · intro u
      by_cases hu : u = t
      · subst hu
        simp
      · simp [update_of_ne hu, hnone u, Ne.symm hu]
  | release l k =>
    simp only [hcode, Option.ite_none_right_eq_some, Option.some.injEq] at hs
    rw [hcode] at ht
    obtain ⟨hheld, rfl⟩ := hs
    obtain ⟨m, hi, hk⟩ := ht _ w.lock g hi hl rfl ((hl l t).mp hheld)
    refine ⟨_, ?_, held_update hl ?_ fun l' hl' => by simp [hl'], safeFor_update hc hk⟩
    · rw [Pool.visited_cons, Pool.insert_visited hw]
      exact hi
    · intro u
      by_cases hu : u = t
      · subst hu
        simp
      · rw [update_of_ne hu]
        exact ⟨fun h => absurd h (by simp), fun h => absurd (hl.unique h ((hl l t).mp hheld)) hu⟩
  | data f k =>
    simp only [hcode, Option.map_eq_some_iff] at hs
    rw [hcode] at ht
    obtain ⟨⟨b, d'⟩, hf, rfl⟩ := hs
    obtain ⟨m, hi, hk⟩ := ht i _ w.lock g b d' hi hl rfl hf hok
    refine ⟨_, ?_, ?_, safeFor_update hc hk⟩
    · rw [Pool.visited_cons]
      exact hi
    intro l u
    by_cases hu : u = t
    · subst hu
      simpa using hl l u
    · simpa [update_of_ne hu] using hl l u
  | iter f c k =>
    simp only [hcode, Option.some.injEq] at hs
    rw [hcode] at ht
    subst hs
    refine ⟨g, ?_, hl, fun u => ?_⟩
    · rw [Pool.visited_cons, Pool.insert_visited hw]
      exact hi
    · have := safeFor_update hc ht u
      rwa [update_eq_self] at this

/-- What an outline is for: if modes fit the start, the invariant holds all along every run. -/
theorem invariant_path {w0 : Pool T Λ ι D} {ws : List (Pool T Λ ι D)} (hi : O.inv {w0.data} w0.data g)
    (hl : Held w0.lock g) (hc : ∀ t, O.Safe t (g t) (w0.code t) fun _ _ => True)
    (hp : Pool.Path O.ok w0 ws w) :
    ∃ g, O.inv (Pool.visited ws) w.data g ∧ Held w.lock g := by
  have hfit : ∀ n, O.FitsFor n ws w := by
    induction hp with
    | start =>
      have hstart : Pool.visited [w0] = {w0.data} := by simp [Pool.visited]
      exact fun n => ⟨g, hstart ▸ hi, hl, fun t => hc t n⟩
    | step hp hs hok ih => exact fun n => (ih (n+1)).step hp.last_mem hs hok
  obtain ⟨g, hi, hl, -⟩ := hfit 0
  exact ⟨g, hi, hl⟩

theorem invariant {w0 : Pool T Λ ι D} (hi : O.inv {w0.data} w0.data g)
    (hl : Held w0.lock g) (hc : ∀ t, O.Safe t (g t) (w0.code t) fun _ _ => True)
    (hr : Pool.Run O.ok w0 w) : ∃ past g, O.inv past w.data g ∧ Held w.lock g := by
  obtain ⟨ws, hp⟩ := hr.path
  exact ⟨_, invariant_path hi hl hc hp⟩

end

end Outline
end Xv6
