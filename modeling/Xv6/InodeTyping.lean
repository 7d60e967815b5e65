import Xv6.InodeRules

/-! Each function of the kernel is typed for what its caller owns; a system call starts and ends
without references, locks or files of its own. -/
namespace Xv6.Inodes

open Interleaving Function

/-- In a call that began with `L` the process has come to `L'`, with these references and locks and
whatever knowledge. -/
structure Loc.After (L : Loc) (refs locks : List (Fin NINODE)) (L' : Loc) : Prop where
  alive : L'.alive = true
  stage : L'.stage = none
  cwd : L'.cwd = L.cwd
  slots : L'.slots = L.slots
  gone : L'.gone = L.gone
  files : L'.files = L.files
  refs : L'.refs = refs
  locks : L'.locks = locks

/-- The fact is about the type or number of an inode in `B`. -/
def Fact.On (B : List (Fin NINODE)) : Fact → Prop
  | .type i _ => i ∈ B
  | .num i _ => i ∈ B
  | _ => False

/-- Knowledge about the inodes in `B` is kept. -/
def Loc.Keeps (L : Loc) (B : List (Fin NINODE)) (L' : Loc) : Prop :=
  ∀ φ ∈ L.know, φ.On B → φ ∈ L'.know

/-- Loading an inode makes a process forget only that it was new. -/
def Loc.KeepsLoading (L : Loc) (i : Fin NINODE) (L' : Loc) : Prop :=
  ∀ φ ∈ L.know, (∀ u, φ ≠ .born i u) → φ ∈ L'.know

/-- Everything but the names in directory `j` is still known. -/
def Loc.KeepsLooking (L : Loc) (j : Fin NINODE) (L' : Loc) : Prop :=
  ∀ φ ∈ L.know, (∀ off n, φ ≠ .named j off n) → φ ∈ L'.know

variable {md : Mode} {L0 L : Loc} {i j : Fin NINODE} {R K B : List (Fin NINODE)}

section Keeping
variable {L1 L2 : Loc}

theorem Loc.Keeps.trans (h : L.Keeps B L1) (h' : L1.Keeps B L2) : L.Keeps B L2 :=
  fun φ hφ hon => h' φ (h φ hφ hon) hon

theorem Loc.KeepsLoading.keeps (h : L.KeepsLoading i L1) (B : List (Fin NINODE)) : L.Keeps B L1 := by
  intro φ hφ hon
  apply h φ hφ
  rintro u rfl
  exact hon

theorem Loc.KeepsLooking.keeps (h : L.KeepsLooking j L1) (B : List (Fin NINODE)) :
    L.Keeps B L1 := by
  intro φ hφ hon
  apply h φ hφ
  rintro off n rfl
  exact hon

theorem Loc.Keeps.dropRef (h : i ∈ B → i ∈ L.refs.erase i) : L.Keeps B (L.dropRef i) := by
  intro φ hφ hon
  refine ⟨hφ, ?_⟩
  by_cases hi : i ∈ B
  · exact .inl (h hi)
  · refine .inr ⟨?_, ?_, ?_⟩ <;> rintro t rfl
    · exact hi hon
    · exact hi hon
    · exact hon

theorem Loc.Keeps.unlocked (h : i ∈ B → i ∈ L.refs) : L.Keeps B (L.unlocked i) := by
  intro φ hφ hon
  refine ⟨hφ, ?_, ?_, ?_⟩
  · by_cases hi : i ∈ B
    · exact .inl (h hi)
    · refine .inr ?_
      rintro t rfl
      exact hi hon
  · rintro off n rfl
    exact hon
  · rintro n t rfl
    exact hon

end Keeping

section
variable (h : L0.After R K L)
include h

theorem Loc.After.knows (φs : Set Fact) : L0.After R K { L with know := φs } :=
  ⟨h.alive, h.stage, h.cwd, h.slots, h.gone, h.files, h.refs, h.locks⟩

theorem Loc.After.addRef (i : Fin NINODE) (φs : Set Fact) :
    L0.After (i :: R) K { L.addRef i with know := φs } :=
  ⟨h.alive, h.stage, h.cwd, h.slots, h.gone, h.files, congrArg (i :: ·) h.refs, h.locks⟩

theorem Loc.After.dropRef (i : Fin NINODE) : L0.After (R.erase i) K (L.dropRef i) :=
  ⟨h.alive, h.stage, h.cwd, h.slots, h.gone, h.files, congrArg (·.erase i) h.refs, h.locks⟩

theorem Loc.After.unlocked (i : Fin NINODE) : L0.After R (K.erase i) (L.unlocked i) :=
  ⟨h.alive, h.stage, h.cwd, h.slots, h.gone, h.files, h.refs, congrArg (·.erase i) h.locks⟩

theorem typed_ilockIn {new : Option (Fin NINODE)} (hb : L.Backs i)
    (hw : K = [] ∨ ∃ j, K = [j] ∧ L.MayWait new j i) :
    Typed (rules md) (ilockIn new i) (fun _ L' => i ∉ K ∧ L0.After R (i :: K) L' ∧ L.KeepsLoading i L' ∧
      ∃ t, Fact.type i t ∈ L'.know ∧ (md.careful → ∀ u, Fact.born i u ∈ L.know → t = u)) L := by
  rw [← h.locks] at hw
  refine Typed.bind (Typed.op ⟨h.alive, h.stage, hb, fun _ => hw⟩) ?_
  rintro _ L1 ⟨hi, rfl⟩
  refine Typed.mono (Typed.op ⟨h.alive, List.mem_cons_self, h.stage⟩) ?_
  rintro _ L2 ⟨t, rfl, ht⟩
  rw [h.locks] at hi
  exact ⟨hi, ⟨h.alive, h.stage, h.cwd, h.slots, h.gone, h.files, h.refs, congrArg (i :: ·) h.locks⟩,
    fun φ hφ hborn => .inr ⟨hφ, hborn⟩, t, .inl rfl, ht⟩

theorem typed_iput (hi : i ∈ R) (hl : i ∈ K → i ∈ R.erase i) :
    Typed (rules md) (iput i) (fun _ L' => L' = L.dropRef i) L := by
  rw [← h.refs] at hi hl
  rw [← h.locks] at hl
  refine Typed.bind (Typed.op ⟨h.alive, hi, h.stage, hl⟩) ?_
  intro last L1 h1
  cases last with
  | false => exact h1
  | true =>
    obtain ⟨hlast, rfl⟩ := h1
    refine Typed.bind (Typed.op ⟨h.alive, .inl rfl⟩) ?_
    rintro _ L2 rfl
    refine Typed.bind (Typed.op ⟨h.alive, rfl⟩) ?_
    rintro _ L3 rfl
    refine Typed.bind (Typed.op ⟨h.alive, rfl⟩) ?_
    rintro _ L4 rfl
    refine Typed.mono (Typed.op ⟨h.alive, rfl⟩) ?_
    rintro _ L5 rfl
    -- what was forgotten when the reference was found to be the last one is not forgotten twice
    have hknow : (L.keptWithout i : Set Fact) =
        { φ | φ ∈ L.keptWithout i ∧ (i ∈ L.refs.erase i ∨
          (∀ t, φ ≠ .type i t) ∧ (∀ n, φ ≠ .num i n) ∧ ∀ t, φ ≠ .born i t) } := by
      ext φ
      exact ⟨fun h => ⟨h, h.2⟩, fun h => h.1⟩
    simp only [List.erase_cons_head]
    rw [Loc.mk.injEq]
    exact ⟨rfl, rfl, rfl, rfl, rfl, rfl, rfl, h.stage.symm, hknow.symm⟩

theorem typed_iunlockput (hi : i ∈ R) (hl : i ∈ K) (hl' : i ∉ K.erase i)
    (hB : i ∈ B → i ∈ R.erase i) :
    Typed (rules md) (iunlockput i)
      (fun _ L' => L0.After (R.erase i) (K.erase i) L' ∧ L.Keeps B L') L := by
  refine Typed.bind (Typed.op ⟨h.alive, h.locks ▸ hl, h.stage⟩) ?_
  rintro _ L1 rfl
  refine Typed.mono (typed_iput (h.unlocked i) hi fun h => absurd h hl') ?_
  rintro _ L2 rfl
  rw [← h.refs] at hi hB
  exact ⟨(h.unlocked i).dropRef i, (Loc.Keeps.unlocked fun _ => hi).trans (.dropRef hB)⟩

end

theorem Loc.After.dropHead (h : L0.After (i :: R) K L) : L0.After R K (L.dropRef i) :=
  List.erase_cons_head i R ▸ h.dropRef i

theorem Loc.After.unlockHead (h : L0.After R (i :: K) L) : L0.After R K (L.unlocked i) :=
  List.erase_cons_head i K ▸ h.unlocked i

theorem typed_iunlockput_last (h : L0.After (i :: R) (i :: K) L) (hi : i ∉ K) :
    Typed (rules md) (iunlockput i) (fun _ L' => L0.After R K L' ∧ L.Keeps R L') L := by
  have hput : Typed (rules md) (iunlockput i) _ L := typed_iunlockput (B := R) h List.mem_cons_self
    List.mem_cons_self (by simpa using hi) (by simp)
  simpa only [List.erase_cons_head] using hput

theorem erase_second (a b : Fin NINODE) (R : List (Fin NINODE)) :
    (a :: b :: R).erase b = a :: R := by
  by_cases h : a = b
  · subst h
    exact List.erase_cons_head a _
  · rw [List.erase_cons_tail (by simpa using h), List.erase_cons_head]

theorem typed_iunlockput_first (h : L0.After (i :: j :: R) K L) (hK : j ∈ K) (hK' : j ∉ K.erase j)
    (hB : j ∈ B → j ∈ i :: R) :
    Typed (rules md) (iunlockput j)
      (fun _ L' => L0.After (i :: R) (K.erase j) L' ∧ L.Keeps B L') L := by
  have hput : Typed (rules md) (iunlockput j) _ L :=
    typed_iunlockput (B := B) h (by simp) hK hK' (by rwa [erase_second])
  rwa [erase_second] at hput

/-- What `dirlookup` leaves, with a reference when it has found an entry. -/
def Loc.Looked (L0 L : Loc) (R K : List (Fin NINODE)) (j : Fin NINODE) (name : Name)
    (r : Option (Fin NINODE × ℕ)) (L' : Loc) : Prop :=
  Fact.type j T_DIR ∈ L.know ∧ L.KeepsLooking j L' ∧
    match r with
    | none => L0.After R K L'
    | some (ip, off) => L0.After (ip :: R) K L' ∧ ∃ n, Fact.num ip n ∈ L'.know ∧
      (¬(name = dot ∨ name = dotdot) → Fact.named j off n ∈ L'.know)

theorem typed_dirlookup (h : L0.After R K L) (hj : j ∈ K) (ht : ∃ t, Fact.type j t ∈ L.know)
    (name : Name) : Typed (rules md) (dirlookup j name) (L0.Looked L R K j name) L := by
  refine Typed.bind (Typed.op ⟨h.alive, h.locks ▸ hj, ht⟩) ?_
  rintro r L1 ⟨hdir, hr⟩
  cases r with
  | none =>
    obtain rfl : L1 = L.forgetNames j := hr
    exact ⟨hdir, fun φ hφ hnamed => ⟨hφ, hnamed⟩, h.knows _⟩
  | some e =>
    obtain ⟨n, off⟩ := e
    obtain ⟨hn, rfl⟩ := hr
    split_ifs with hdot
    · refine Typed.bind (Typed.op ⟨h.alive, fun _ => hn⟩) ?_
      rintro ip L2 rfl
      exact ⟨hdir, fun φ hφ hnamed => .inr ⟨hφ, hnamed⟩, h.addRef ip _, n, .inl rfl,
        (absurd hdot)⟩
    · refine Typed.bind (Typed.op ⟨h.alive, fun _ => hn⟩) ?_
      rintro ip L2 rfl
      exact ⟨hdir, fun φ hφ hnamed => .inr (.inr ⟨hφ, hnamed⟩), h.addRef ip _, n, .inl rfl,
        fun _ => .inr (.inl rfl)⟩

/-- The reference that `namex` returns, if any, in front of those the caller had. -/
def withResult (r : Option (Fin NINODE × Name)) (R : List (Fin NINODE)) : List (Fin NINODE) :=
  match r with
  | none => R
  | some (i, _) => i :: R

variable {ip : Fin NINODE} {t : ℕ} {f : Fin NFILE}

theorem typed_namexLoop (parent : Bool) (elems : List Name) (h : L0.After (ip :: R) [] L) :
    Typed (rules md) (namexLoop parent elems ip)
      (fun r L' => L0.After (withResult r R) [] L' ∧ L.Keeps R L') L := by
  induction elems generalizing L ip with
  | nil =>
    unfold namexLoop
    split
    · refine Typed.bind (typed_iput h List.mem_cons_self (by simp)) ?_
      rintro _ L1 rfl
      have h1 := h.dropHead
      refine ⟨h1, .dropRef fun hip => ?_⟩
      rwa [h.refs, List.erase_cons_head]
    · exact ⟨h, fun φ hφ _ => hφ⟩
  | cons name rest ih =>
    refine Typed.bind (typed_ilockIn h (.inl (by simp [h.refs])) (.inl rfl)) ?_
    rintro _ L1 ⟨-, h1, hk1, t, ht, -⟩
    have hk := hk1.keeps R
    refine Typed.bind (Typed.op ⟨h1.alive, by simp [h1.locks], t, ht⟩) ?_
    rintro d L2 ⟨-, rfl⟩
    split_ifs with hdir hlast
    · refine Typed.bind (typed_iunlockput_last h1 List.not_mem_nil) ?_
      rintro _ L3 ⟨h3, hk3⟩
      exact ⟨h3, hk.trans hk3⟩
    · refine Typed.bind (Typed.op ⟨h1.alive, by simp [h1.locks], h1.stage⟩) ?_
      rintro _ L3 rfl
      have h3 := h1.unlockHead
      exact ⟨h3, hk.trans (.unlocked fun _ => by simp [h1.refs])⟩
    · refine Typed.bind (typed_dirlookup h1 List.mem_cons_self ⟨t, ht⟩ name) ?_
      rintro next L3 ⟨-, hk3, hnext⟩
      have hk3 := hk.trans (hk3.keeps R)
      cases next with
      | none =>
        refine Typed.bind (typed_iunlockput_last hnext List.not_mem_nil) ?_
        rintro _ L4 ⟨h4, hk4⟩
        exact ⟨h4, hk3.trans hk4⟩
      | some e =>
        refine Typed.bind (typed_iunlockput_first (B := R) hnext.1 List.mem_cons_self (by simp)
          (List.mem_cons_of_mem _)) ?_
        rintro _ L4 ⟨h4, hk4⟩
        rw [List.erase_cons_head] at h4
        refine Typed.mono (ih h4) ?_
        rintro r L5 ⟨h5, hk5⟩
        exact ⟨h5, hk3.trans (hk4.trans hk5)⟩

theorem typed_namex (parent : Bool) (path : List UInt8) (h : L0.After R [] L) (hc : L0.cwd.isSome) :
    Typed (rules md) (namex parent path)
      (fun r L' => L0.After (withResult r R) [] L' ∧ L.Keeps R L') L := by
  unfold namex
  split
  · refine Typed.bind (Typed.op ⟨h.alive, fun _ => (by decide : ROOTINO < 2^16)⟩) ?_
    rintro ip L1 rfl
    refine Typed.mono (typed_namexLoop parent _ (h.addRef ip _)) ?_
    rintro r L2 ⟨h2, hk2⟩
    exact ⟨h2, fun φ hφ => hk2 φ (.inr hφ)⟩
  · rw [← h.cwd] at hc
    refine Typed.bind (Typed.op ⟨h.alive, hc⟩) ?_
    rintro ip L1 ⟨-, rfl⟩
    exact typed_namexLoop parent _ (h.addRef ip _)

theorem typed_dirlink (h : L0.After R K L) (hown : ∀ i ∈ K, i ∈ R) (hj : j ∈ K)
    (ht : ∃ t, Fact.type j t ∈ L.know) {name : Name} {n : ℕ}
    (hn : md.ordered → n < 2^16) (hmay : L.MayLink j name n) :
    Typed (rules md) (dirlink j name n) (fun _ L' => L0.After R K L' ∧ L.Keeps R L' ∧
      ∀ m i t, Fact.newborn m i t ∈ L.know → Fact.newborn m i t ∈ L'.know) L := by
  refine Typed.bind (typed_dirlookup h hj ht name) ?_
  rintro found L1 ⟨hdir, hk1, hfound⟩
  cases found with
  | none =>
    have hmay1 : L1.MayLink j name n := by
      rcases hmay with h | h | ⟨t, h⟩ | ⟨i, t, hi, hit, hdirt⟩
      · exact .inl h
      · exact .inr (.inl h)
      · exact .inr (.inr (.inl ⟨t, hk1 _ h (by simp)⟩))
      · exact .inr (.inr (.inr ⟨i, t, hk1 _ hi (by simp), hk1 _ hit (by simp), hdirt⟩))
    have hdir1 := hk1 _ hdir (by simp)
    refine Typed.mono (Typed.op ⟨hfound.alive, hfound.stage, hfound.locks ▸ hj, ⟨T_DIR, hdir1⟩,
      fun ho => ⟨hdir1, hn ho, hmay1⟩⟩) ?_
    rintro _ L2 rfl
    have hk2 : L.KeepsLooking j (L1.forgetNames j) :=
      fun φ hφ hnamed => ⟨hk1 φ hφ hnamed, hnamed⟩
    exact ⟨hfound.knows _, hk2.keeps R, fun m i t hm => hk2 _ hm (by simp)⟩
  | some e =>
    obtain ⟨ip, off⟩ := e
    have h1 := hfound.1
    have hrest := List.erase_cons_head ip R
    refine Typed.bind (typed_iput h1 List.mem_cons_self fun hip => ?_) ?_
    · -- the entry may be the locked directory itself, as "."
      rw [hrest]
      exact hown ip hip
    · rintro _ L2 rfl
      have h2 := h1.dropRef ip
      rw [hrest] at h2
      refine ⟨h2, (hk1.keeps R).trans (.dropRef fun hip => ?_), fun m i t hm => ?_⟩
      · rwa [h1.refs, hrest]
      · exact ⟨hk1 _ hm (by simp), .inr ⟨by simp, by simp, by simp⟩⟩

theorem typed_linkBad (h : L0.After [ip] [] L) :
    Typed (rules md) (linkBad ip) (fun _ L' => L0.After [] [] L') L := by
  refine Typed.bind (typed_ilockIn h (.inl (by simp [h.refs])) (.inl rfl)) ?_
  rintro _ L1 ⟨-, h1, -, t, ht, -⟩
  refine Typed.bind (Typed.op ⟨h1.alive, h1.stage, by simp [h1.locks], t, ht⟩) ?_
  rintro _ L2 rfl
  exact Typed.mono (typed_iunlockput_last h1 List.not_mem_nil) fun _ _ h3 => h3.1

theorem typed_linkIn (new : List UInt8) (h : L0.After [ip] [] L)
    (hc : L0.cwd.isSome) (ht : Fact.type ip t ∈ L.know) (hdir : t ≠ T_DIR) :
    Typed (rules md) (linkIn ip new) (fun _ L' => L0.After [] [] L') L := by
  refine Typed.bind (typed_namex true new h hc) ?_
  rintro r L1 ⟨h1, hk1⟩
  have ht1 := hk1 _ ht List.mem_cons_self
  cases r with
  | none => exact typed_linkBad h1
  | some e =>
    obtain ⟨dp, name⟩ := e
    have h1 : L0.After [dp, ip] [] L1 := h1
    refine Typed.bind (typed_ilockIn h1 (.inl (by simp [h1.refs])) (.inl rfl)) ?_
    rintro _ L2 ⟨-, h2, hk2, u, hu, -⟩
    refine Typed.bind (Typed.op ⟨h2.alive, (by simp [h2.refs] : ip ∈ L2.refs)⟩) ?_
    rintro inum L3 ⟨hinum, -, rfl⟩
    have hmay : (L2.learn (.num ip inum)).MayLink dp name inum :=
      .inr (.inr (.inr ⟨ip, t, .inl rfl, .inr (hk2 _ ht1 (by simp)), hdir⟩))
    refine Typed.bind (typed_dirlink (h2.knows _) (by simp) List.mem_cons_self ⟨u, .inr hu⟩ hinum
      hmay) ?_
    rintro ok L4 ⟨h4, -⟩
    refine Typed.bind (typed_iunlockput_last h4 List.not_mem_nil) ?_
    rintro _ L5 ⟨h5, -⟩
    split
    · refine Typed.mono (typed_iput h5 List.mem_cons_self (by simp)) ?_
      rintro _ L6 rfl
      exact h5.dropHead
    · exact typed_linkBad h5

/-- A process at the start of a system call. -/
structure Loc.Calls (L : Loc) : Prop extends L.Idle where
  alive : L.alive = true

/-- The program ends with the process as it is outside of system calls. -/
abbrev Returns (md : Mode) (x : Call Unit) (L : Loc) : Prop :=
  Typed (rules md) x (fun _ L' => L'.Idle) L

theorem Loc.Calls.after (hL : L.Calls) : L.After [] [] L :=
  ⟨hL.alive, hL.stage, rfl, rfl, rfl, rfl, hL.refs, hL.locks⟩

theorem Loc.After.idle {L' : Loc} (h : L.After [] [] L') (hL : L.Calls) : L'.Idle where
  refs := h.refs
  locks := h.locks
  files := h.files.trans hL.files
  gone := h.gone.trans hL.gone
  stage := h.stage
  cwd _ := h.cwd.symm ▸ hL.cwd hL.alive

theorem typed_namei (path : List UInt8) (hL : L.Calls) :
    Typed (rules md) (namei path) (fun r L' => L.After r.toList [] L') L := by
  refine Typed.bind (typed_namex false path hL.after (hL.cwd hL.alive)) ?_
  rintro r L1 ⟨h1, -⟩
  cases r with
  | none => exact h1
  | some e => exact h1

theorem typed_nameiLock {path : List UInt8} {k : Fin NINODE → Call Unit} (hL : L.Calls)
    (hk : ∀ ip L1 t, L.After [ip] [ip] L1 → Fact.type ip t ∈ L1.know →
      Returns md (k ip) L1) :
    Returns md (do
      let ip ← namei path
      match ip with
      | none => return
      | some ip => do
        ilock ip
        k ip) L := by
  refine Typed.bind (typed_namei path hL) ?_
  intro r L1 h1
  cases r with
  | none => exact h1.idle hL
  | some ip =>
    refine Typed.bind (typed_ilockIn h1 (.inl (by simp [h1.refs])) (.inl rfl)) ?_
    rintro _ L2 ⟨-, h2, -, t, ht, -⟩
    exact hk ip L2 t h2 ht

theorem typed_giveUp (hL0 : L0.Calls) (h : L0.After [ip] [ip] L) : Returns md (iunlockput ip) L :=
  Typed.mono (typed_iunlockput_last h List.not_mem_nil) fun _ _ h' => h'.1.idle hL0

theorem typed_sysLink (old new : List UInt8) (hL : L.Calls) : Returns md (sysLink old new) L := by
  apply typed_nameiLock hL
  intro ip L1 t h1 ht
  refine Typed.bind (Typed.op ⟨h1.alive, by simp [h1.locks], t, ht⟩) ?_
  rintro d L2 ⟨hd, rfl⟩
  split_ifs with hdir
  · exact typed_giveUp hL h1
  · refine Typed.bind (Typed.op ⟨h1.alive, h1.stage, by simp [h1.locks], t, ht⟩) ?_
    rintro _ L3 rfl
    refine Typed.bind (Typed.op ⟨h1.alive, (by simp [h1.locks] : ip ∈ L3.locks), h1.stage⟩) ?_
    rintro _ L4 rfl
    have h4 := h1.unlockHead
    have ht4 := Loc.Keeps.unlocked (i := ip) (B := [ip]) (fun _ => by simp [h1.refs]) _ ht
      List.mem_cons_self
    refine Typed.mono (typed_linkIn new h4 (hL.cwd hL.alive) ht4 fun hne => ?_)
      fun _ _ h' => h'.idle hL
    exact hdir ((hd t ht).trans hne)

theorem typed_panic (ha : L.alive = true) (msg : String) {Q : Unit → Loc → Prop} :
    Typed (rules md) (liftM (Op.panic msg) : Call Unit) Q L :=
  ⟨⟨ha, trivial⟩, fun _ _ h => h.elim⟩

theorem typed_unlinkDone {dp : Fin NINODE} (type : ℕ) (h : L0.After [ip, dp] [ip, dp] L)
    (hne : ip ≠ dp) (htip : ∃ t, Fact.type ip t ∈ L.know) (htdp : ∃ t, Fact.type dp t ∈ L.know) :
    Typed (rules md) (unlinkDone type dp ip) (fun _ L' => L0.After [] [] L') L := by
  have hrest : Typed (rules md) (do
      iunlockput dp
      Op.change ip .decLink
      iunlockput ip) (fun _ => L0.After [] []) L := by
    refine Typed.bind (typed_iunlockput_first (B := [ip]) h (by simp)
      (by rw [erase_second]; simpa using hne.symm) (by simp [hne.symm])) ?_
    rintro _ L1 ⟨h1, hk1⟩
    rw [erase_second] at h1
    obtain ⟨t, ht⟩ := htip
    refine Typed.bind (Typed.op ⟨h1.alive, h1.stage, by simp [h1.locks], t,
      hk1 _ ht (List.mem_singleton_self ip)⟩) ?_
    rintro _ L2 rfl
    exact Typed.mono (typed_iunlockput_last h1 List.not_mem_nil) fun _ _ h3 => h3.1
  unfold unlinkDone
  split_ifs
  · refine Typed.bind (Typed.op ⟨h.alive, h.stage, by simp [h.locks], htdp⟩) ?_
    rintro _ L1 rfl
    exact hrest
  · exact hrest

theorem typed_unlinkFound {dp : Fin NINODE} {off n : ℕ} (h : L0.After [ip, dp] [ip, dp] L)
    (hne : ip ≠ dp) (htip : ∃ t, Fact.type ip t ∈ L.know) (htdp : ∃ t, Fact.type dp t ∈ L.know)
    (hnamed : Fact.named dp off n ∈ L.know) :
    Typed (rules md) (unlinkFound dp ip off) (fun _ L' => L0.After [] [] L') L := by
  have hip : ip ∈ L.locks := by simp [h.locks]
  refine Typed.bind (Typed.op ⟨h.alive, hip, htip⟩) ?_
  rintro d L1 ⟨-, rfl⟩
  -- the directory's entry is erased, or both inodes are given up
  have hrest (empty : Bool) : Typed (rules md) (if empty then (do
        let ok ← (liftM (Op.erase dp off) : Call Bool)
        if ok then unlinkDone d.type dp ip else Op.panic "unlink: writei")
      else (do
        iunlockput ip
        iunlockput dp)) (fun _ => L0.After [] []) L1 := by
    cases empty with
    | true =>
      refine Typed.bind (Typed.op ⟨h.alive, h.stage, by simp [h.locks], htdp,
        fun _ => ⟨n, hnamed⟩⟩) ?_
      rintro ok L2 rfl
      cases ok with
      | false => exact typed_panic (L := L1.forgetNames dp) h.alive _
      | true =>
        exact typed_unlinkDone d.type (h.knows _) hne (htip.imp fun _ ht => ⟨ht, by simp⟩)
          (htdp.imp fun _ ht => ⟨ht, by simp⟩)
    | false =>
      refine Typed.bind (typed_iunlockput_last h (by simpa using hne)) ?_
      rintro _ L2 ⟨h2, -⟩
      exact Typed.mono (typed_iunlockput_last h2 List.not_mem_nil) fun _ _ h3 => h3.1
  split_ifs with hlink hdir
  · exact typed_panic h.alive _
  · refine Typed.bind (Typed.op ⟨h.alive, hip⟩) ?_
    rintro empty L2 rfl
    exact hrest empty
  · exact hrest true

theorem typed_sysUnlink (path : List UInt8) (hL : L.Calls) : Returns md (sysUnlink path) L := by
  refine Typed.bind (typed_namex true path hL.after (hL.cwd hL.alive)) ?_
  rintro r L1 ⟨h1, -⟩
  cases r with
  | none => exact h1.idle hL
  | some e =>
    obtain ⟨dp, name⟩ := e
    have h1 : L.After [dp] [] L1 := h1
    refine Typed.bind (typed_ilockIn h1 (.inl (by simp [h1.refs])) (.inl rfl)) ?_
    rintro _ L2 ⟨-, h2, -, t, ht, -⟩
    split_ifs with hdot
    · exact typed_giveUp hL h2
    · refine Typed.bind (typed_dirlookup h2 List.mem_cons_self ⟨t, ht⟩ name) ?_
      rintro found L3 ⟨-, hk3, hfound⟩
      cases found with
      | none => exact typed_giveUp hL hfound
      | some e =>
        obtain ⟨ip, off⟩ := e
        obtain ⟨h3, n, hnum, hnamed⟩ := hfound
        have hnamed := hnamed hdot
        refine Typed.bind (typed_ilockIn h3 (.inl (by simp [h3.refs]))
          (.inr ⟨dp, rfl, n, hnum, .inl ⟨off, hnamed⟩⟩)) ?_
        rintro _ L4 ⟨hip, h4, hk4, u, hu, -⟩
        exact Typed.mono (typed_unlinkFound h4 (by simpa using hip) ⟨u, hu⟩
          ⟨t, hk4 _ (hk3 _ ht (by simp)) (by simp)⟩ (hk4 _ hnamed (by simp))) fun _ _ h' => h'.idle hL

/-! ## `create` -/

/-- What `create` owns once it has locked its new inode. -/
structure Loc.Creating (L0 : Loc) (dp ip : Fin NINODE) (n type : ℕ) (L : Loc) : Prop where
  after : L0.After [ip, dp] [ip, dp] L
  ne : ip ≠ dp
  num : Fact.num ip n ∈ L.know
  newborn : Fact.newborn n dp type ∈ L.know
  typeIp : ∃ t, Fact.type ip t ∈ L.know
  typeDp : ∃ t, Fact.type dp t ∈ L.know

variable {dp ip : Fin NINODE} {n type : ℕ}

theorem Loc.Creating.learn (h : L0.Creating dp ip n type L) (φ : Fact) :
    L0.Creating dp ip n type (L.learn φ) :=
  ⟨h.after.knows _, h.ne, .inr h.num, .inr h.newborn, h.typeIp.imp fun _ ht => .inr ht,
    h.typeDp.imp fun _ ht => .inr ht⟩

theorem typed_createLink (h : L0.Creating dp ip n type L) (hj : j = ip ∨ j = dp) {name : Name} {m : ℕ}
    (hm : md.ordered → m < 2^16) (hmay : L.MayLink j name m) :
    Typed (rules md) (dirlink j name m) (fun _ L' => L0.Creating dp ip n type L' ∧
      ∀ t, Fact.type ip t ∈ L.know → Fact.type ip t ∈ L'.know) L := by
  have hip : ip ∈ [ip, dp] := List.mem_cons_self
  have ht : ∃ t, Fact.type j t ∈ L.know := by
    rcases hj with rfl | rfl
    · exact h.typeIp
    · exact h.typeDp
  refine Typed.mono (typed_dirlink h.after (fun _ hi => hi) (by simpa using hj) ht hm hmay) ?_
  rintro _ L1 ⟨h1, hk1, hborn⟩
  exact ⟨⟨h1, h.ne, hk1 _ h.num hip, hborn _ _ _ h.newborn, h.typeIp.imp fun _ ht => hk1 _ ht hip,
    h.typeDp.imp fun _ ht => hk1 _ ht (List.mem_cons_of_mem _ List.mem_cons_self)⟩,
    fun _ ht => hk1 _ ht hip⟩

theorem typed_createDots (h : L0.Creating dp ip n type L) :
    Typed (rules md) (createDots type dp ip) (fun _ L' => L0.Creating dp ip n type L' ∧
      ∀ t, Fact.type ip t ∈ L.know → Fact.type ip t ∈ L'.know) L := by
  unfold createDots
  split_ifs
  · refine Typed.bind (Typed.op ⟨h.after.alive, (by simp [h.after.refs] : ip ∈ L.refs)⟩) ?_
    rintro inum L1 ⟨hinum, -, rfl⟩
    refine Typed.bind (typed_createLink (h.learn _) (.inl rfl) hinum (.inl rfl)) ?_
    rintro ok L2 ⟨h2, ht2⟩
    cases ok with
    | false => exact ⟨h2, fun t ht => ht2 t (.inr ht)⟩
    | true =>
      refine Typed.bind (Typed.op ⟨h2.after.alive, (by simp [h2.after.refs] : dp ∈ L2.refs)⟩) ?_
      rintro dpnum L3 ⟨hdpnum, -, rfl⟩
      refine Typed.mono (typed_createLink (h2.learn _) (.inl rfl) hdpnum (.inr (.inl rfl))) ?_
      rintro ok L4 ⟨h4, ht4⟩
      exact ⟨h4, fun t ht => ht4 t (.inr (ht2 t (.inr ht)))⟩
  · exact ⟨h, fun _ ht => ht⟩

/-- What `create` returns: nothing, or a locked inode; a new or existing file is no directory. -/
def Loc.Created (md : Mode) (L : Loc) (type : ℕ) (r : Option (Fin NINODE)) (L' : Loc) : Prop :=
  match r with
  | none => L.After [] [] L'
  | some ip => L.After [ip] [ip] L' ∧
    ∃ t, Fact.type ip t ∈ L'.know ∧ (md.careful → type ≠ T_DIR → t ≠ T_DIR)

theorem typed_createFail (h : L0.Creating dp ip n type L) :
    Typed (rules md) (createFail dp ip) (L0.Created md type) L := by
  refine Typed.bind (Typed.op ⟨h.after.alive, h.after.stage, by simp [h.after.locks], h.typeIp⟩) ?_
  rintro _ L1 rfl
  refine Typed.bind (typed_iunlockput_last h.after (by simpa using h.ne)) ?_
  rintro _ L2 ⟨h2, -⟩
  exact Typed.bind (typed_iunlockput_last h2 List.not_mem_nil) fun _ _ h3 => h3.1

theorem typed_createDone (h : L0.Creating dp ip n type L) (ht : Fact.type ip t ∈ L.know)
    (htype : md.careful → type ≠ T_DIR → t ≠ T_DIR) :
    Typed (rules md) (createDone type dp ip) (L0.Created md type) L := by
  have hrest : Typed (rules md) (do
      iunlockput dp
      return some ip) (L0.Created md type) L := by
    refine Typed.bind (typed_iunlockput_first (B := [ip]) h.after (by simp)
      (by rw [erase_second]; simpa using h.ne.symm) (by simp [h.ne.symm])) ?_
    rintro _ L1 ⟨h1, hk1⟩
    rw [erase_second] at h1
    exact ⟨h1, t, hk1 _ ht (List.mem_singleton_self ip), htype⟩
  unfold createDone
  split_ifs
  · refine Typed.bind (Typed.op ⟨h.after.alive, h.after.stage, by simp [h.after.locks], h.typeDp⟩) ?_
    rintro _ L1 rfl
    exact hrest
  · exact hrest

theorem typed_createNew (major minor : ℕ) (name : Name) (h : L0.After [ip, dp] [dp] L)
    (hnum : Fact.num ip n ∈ L.know) (hnew : Fact.newborn n dp type ∈ L.know)
    (hborn : Fact.born ip type ∈ L.know) (htdp : ∃ t, Fact.type dp t ∈ L.know) :
    Typed (rules md) (createNew type major minor dp name ip) (L0.Created md type) L := by
  refine Typed.bind (typed_ilockIn h (.inl (by simp [h.refs]))
    (.inr ⟨dp, rfl, n, hnum, .inr ⟨rfl, type, hnew⟩⟩)) ?_
  rintro _ L1 ⟨hip, hafter, hk1, t, ht, hsame⟩
  have h1 : L0.Creating dp ip n type L1 := ⟨hafter, by simpa using hip, hk1 _ hnum (by simp),
    hk1 _ hnew (by simp), ⟨t, ht⟩, htdp.imp fun _ ht => hk1 _ ht (by simp)⟩
  refine Typed.bind (Typed.op ⟨hafter.alive, hafter.stage, by simp [hafter.locks], t, ht⟩) ?_
  rintro _ L2 rfl
  refine Typed.bind (typed_createDots h1) ?_
  rintro ok L3 ⟨h3, ht3⟩
  cases ok with
  | false => exact typed_createFail h3
  | true =>
    refine Typed.bind (Typed.op ⟨h3.after.alive, (by simp [h3.after.refs] : ip ∈ L3.refs)⟩) ?_
    rintro inum L4 ⟨hinum, hn, rfl⟩
    have hmay : (L3.learn (.num ip inum)).MayLink dp name inum := by
      rw [hn n h3.num]
      exact .inr (.inr (.inl ⟨type, .inr h3.newborn⟩))
    refine Typed.bind (typed_createLink (h3.learn _) (.inr rfl) hinum hmay) ?_
    rintro ok L5 ⟨h5, ht5⟩
    cases ok with
    | false => exact typed_createFail h5
    | true =>
      refine typed_createDone h5 (ht5 t (.inr (ht3 t ht))) fun hcareful hdir => ?_
      rw [hsame hcareful type hborn]
      exact hdir

theorem typed_createIn (major minor : ℕ) (name : Name) (h : L0.After [dp] [dp] L)
    (hdir : Fact.type dp T_DIR ∈ L.know) (htype : type ≠ 0) :
    Typed (rules md) (do
      let ip ← ialloc dp type
      match ip with
      | none => do
        iunlockput dp
        return none
      | some ip => createNew type major minor dp name ip) (L0.Created md type) L := by
  have hdp : dp ∈ L.locks := by simp [h.locks]
  refine Typed.bind (Q := fun ip L' => match ip with
    | none => L' = L
    | some ip => ∃ n, L' = ((L.learn (.newborn n dp type)).learn (.unborn n type)).addNew ip n) ?_ ?_
  · refine Typed.bind (Typed.op ⟨h.alive, htype, fun _ => ⟨hdp, hdir⟩⟩) ?_
    intro r L1 h1
    cases r with
    | none => exact h1
    | some n =>
      obtain ⟨hn, rfl⟩ := h1
      refine Typed.bind (Typed.op ⟨h.alive, hn, type, .inl rfl⟩) ?_
      rintro ip L2 rfl
      exact ⟨n, rfl⟩
  · intro r L1 h1
    cases r with
    | none =>
      subst h1
      exact Typed.bind (typed_iunlockput_last h List.not_mem_nil) fun _ _ h2 => h2.1
    | some ip =>
      obtain ⟨n, rfl⟩ := h1
      exact typed_createNew major minor name (h.addRef ip _) (.inl rfl)
        (.inr (.inl ⟨.inr (.inl rfl), by simp⟩)) (.inr (.inr ⟨type, rfl, .inl rfl⟩))
        ⟨T_DIR, .inr (.inl ⟨.inr (.inr hdir), by simp⟩)⟩

theorem typed_create (path : List UInt8) (major minor : ℕ) (hL : L.Calls) (htype : type ≠ 0) :
    Typed (rules md) (create path type major minor) (L.Created md type) L := by
  refine Typed.bind (typed_namex true path hL.after (hL.cwd hL.alive)) ?_
  rintro r L1 ⟨h1, -⟩
  cases r with
  | none => exact h1
  | some e =>
    obtain ⟨dp, name⟩ := e
    have h1 : L.After [dp] [] L1 := h1
    refine Typed.bind (typed_ilockIn h1 (.inl (by simp [h1.refs])) (.inl rfl)) ?_
    rintro _ L2 ⟨-, h2, -, t, ht, -⟩
    refine Typed.bind (typed_dirlookup h2 List.mem_cons_self ⟨t, ht⟩ name) ?_
    rintro found L3 ⟨hdir, hk3, hfound⟩
    cases found with
    | some e =>
      refine Typed.bind (typed_iunlockput_first (B := []) hfound.1 List.mem_cons_self (by simp)
        (by simp)) ?_
      rintro _ L4 ⟨h4, -⟩
      rw [List.erase_cons_head] at h4
      refine Typed.bind (typed_ilockIn h4 (.inl (by simp [h4.refs])) (.inl rfl)) ?_
      rintro _ L5 ⟨-, h5, -, u, hu, -⟩
      refine Typed.bind (Typed.op ⟨h5.alive, by simp [h5.locks], u, hu⟩) ?_
      rintro d L6 ⟨hd, rfl⟩
      split_ifs with hfile
      · refine ⟨h5, u, hu, fun _ _ => ?_⟩
        rw [← hd u hu]
        rcases hfile.2 with h | h
        · rw [h]
          decide
        · rw [h]
          decide
      · exact Typed.bind (typed_iunlockput_last h5 List.not_mem_nil) fun _ _ h7 => h7.1
    | none => exact typed_createIn major minor name hfound (hk3 _ hdir (by simp)) htype

/-! ## Files -/

theorem typed_fileclose {fs : List (Fin NFILE)} (ha : L.alive = true)
    (hs : L.stage = none) (hf : L.files = f :: fs) (hown : L.OwnLocks) :
    Typed (rules md) (fileclose f)
      (fun _ L' => ({ L with files := fs } : Loc).After L.refs L.locks L') L := by
  have hfiles : L.files.erase f = fs := by rw [hf, List.erase_cons_head]
  refine Typed.bind (Typed.op ⟨ha, (by simp [hf] : f ∈ L.files), hown⟩) ?_
  rintro r L1 rfl
  cases r with
  | none => exact ⟨ha, hs, rfl, rfl, rfl, hfiles, rfl, rfl⟩
  | some ip =>
    have h1 : ({ L with files := fs } : Loc).After (ip :: L.refs) L.locks
        { L with
          files := L.files.erase f
          refs := ip :: L.refs
          know := { φ | φ ∈ L.forgetOpened ∧ φ ≠ .fresh f } } :=
      ⟨ha, hs, rfl, rfl, rfl, hfiles, rfl, rfl⟩
    refine Typed.mono (typed_iput h1 List.mem_cons_self fun hip => ?_) ?_
    · rw [List.erase_cons_head]
      exact hown ip hip
    · rintro _ L2 rfl
      exact h1.dropHead

theorem typed_openInode (omode : ℕ) (hL : L.Calls) {L1 : Loc} (h1 : L.After [ip] [ip] L1)
    (ht : Fact.type ip t ∈ L1.know)
    (hwrite : md.careful → opensWritable omode = true → t ≠ T_DIR) :
    Returns md (openInode omode ip) L1 := by
  have hlock : ip ∈ L1.locks := by simp [h1.locks]
  have hnone : L1.files = [] := h1.files.trans hL.files
  have hgone : L1.gone = none := h1.gone.trans hL.gone
  refine Typed.bind (Typed.op ⟨h1.alive, hlock, t, ht⟩) ?_
  rintro d L2 ⟨hd, rfl⟩
  by_cases hdev : d.type = T_DEVICE ∧ (short d.major < 0 ∨ short d.major ≥ NDEV)
  · rw [if_pos hdev]
    exact typed_giveUp hL h1
  rw [if_neg hdev]
  refine Typed.bind (Typed.op ⟨h1.alive, trivial⟩) ?_
  intro r L3 h3
  cases r with
  | none =>
    subst h3
    exact typed_giveUp hL h1
  | some f =>
    subst h3
    refine Typed.bind (Typed.op ⟨h1.alive, List.mem_cons_self, hgone⟩) ?_
    intro r L4 h4
    cases r with
    | none =>
      subst h4
      have hown : ({ L2.learn (.fresh f) with files := f :: L2.files } : Loc).OwnLocks := by
        intro k hk
        change k ∈ L2.refs
        rw [h1.refs, ← h1.locks]
        exact hk
      refine Typed.bind (typed_fileclose h1.alive h1.stage rfl hown) ?_
      intro _ L5 h5
      exact typed_giveUp hL ⟨h5.alive, h5.stage, h5.cwd.trans h1.cwd, h5.slots.trans h1.slots,
        h5.gone.trans h1.gone, h5.files.trans h1.files, h5.refs.trans h1.refs, h5.locks.trans h1.locks⟩
    | some fd =>
      obtain ⟨hslot, rfl⟩ := h4
      have htd : Fact.type ip d.type ∈ L2.know := by
        rw [hd t ht]
        exact ht
      refine Typed.bind (Typed.op ⟨h1.alive, .inl rfl, ⟨fd, update_self fd _ _⟩, h1.stage,
        by simp [Loc.learn, h1.refs], hlock, .inr htd, ?_⟩) ?_
      · intro hcareful hw
        rw [hd t ht]
        exact hwrite hcareful hw
      rintro _ L5 rfl
      have hidle {stage : Option (Fin NINODE × Stage)} {φs : Set Fact} (hs : stage = none) :
          ({ L2 with
            refs := L2.refs.erase ip
            locks := L2.locks.erase ip
            files := (f :: L2.files).erase f
            slots := update L2.slots fd (some f)
            stage := stage
            know := φs } : Loc).Idle :=
        ⟨by simp [h1.refs], by simp [h1.locks], by simp [hnone], hgone, hs,
          fun _ => h1.cwd.symm ▸ hL.cwd hL.alive⟩
      split_ifs with htrunc
      · refine Typed.bind (Typed.op ⟨h1.alive, .inr ⟨h1.stage, hlock, ?_⟩⟩) ?_
        · refine .inr ⟨.inr ?_, by simp, by simp⟩
          rw [← htrunc.2]
          exact htd
        rintro _ L6 rfl
        have hstage : (if L2.stage = none then none else some (ip, Stage.trunced)) = none :=
          if_pos h1.stage
        refine Typed.mono (Typed.op ⟨h1.alive, hlock, hstage⟩) ?_
        rintro _ L7 rfl
        exact hidle hstage
      · refine Typed.mono (Typed.op ⟨h1.alive, hlock, h1.stage⟩) ?_
        rintro _ L6 rfl
        exact hidle h1.stage

theorem typed_sysOpen (path : List UInt8) (omode : ℕ) (hL : L.Calls) :
    Returns md (sysOpen path omode) L := by
  unfold sysOpen
  split_ifs with hcreate
  · refine Typed.bind (typed_create path 0 0 hL (by decide)) ?_
    intro r L1 h1
    cases r with
    | none => exact Loc.After.idle h1 hL
    | some ip =>
      obtain ⟨h1, t, ht, htype⟩ := h1
      exact typed_openInode omode hL h1 ht fun hcareful _ => htype hcareful (by decide)
  · apply typed_nameiLock hL
    intro ip L1 t h1 ht
    refine Typed.bind (Typed.op ⟨h1.alive, by simp [h1.locks], t, ht⟩) ?_
    rintro d L2 ⟨hd, rfl⟩
    split_ifs with hdir
    · exact typed_giveUp hL h1
    · apply typed_openInode omode hL h1 ht
      intro _ hw htdir
      apply hdir
      refine ⟨(hd t ht).trans htdir, ?_⟩
      rintro rfl
      cases hw

theorem typed_sysCreate (path : List UInt8) (major minor : ℕ) (hL : L.Calls) (htype : type ≠ 0) :
    Returns md (sysCreate path type major minor) L := by
  refine Typed.bind (typed_create path major minor hL htype) ?_
  intro r L1 h1
  cases r with
  | none => exact Loc.After.idle h1 hL
  | some ip => exact typed_giveUp hL h1.1

theorem typed_sysChdir (path : List UInt8) (hL : L.Calls) : Returns md (sysChdir path) L := by
  apply typed_nameiLock hL
  intro ip L1 t h1 ht
  refine Typed.bind (Typed.op ⟨h1.alive, by simp [h1.locks], t, ht⟩) ?_
  rintro d L2 ⟨-, rfl⟩
  split_ifs with hdir
  · exact typed_giveUp hL h1
  · refine Typed.bind (Typed.op ⟨h1.alive, (by simp [h1.locks] : ip ∈ L2.locks), h1.stage⟩) ?_
    rintro _ L3 rfl
    have hcwd : L2.cwd.isSome := h1.cwd.symm ▸ hL.cwd hL.alive
    refine Typed.bind (Typed.op ⟨h1.alive, hcwd⟩) ?_
    rintro cwd L4 ⟨-, rfl⟩
    have h4 : ({ (L2.unlocked ip).addRef cwd with cwd := none } : Loc).After [cwd, ip] []
        { (L2.unlocked ip).addRef cwd with cwd := none } :=
      ⟨h1.alive, h1.stage, rfl, rfl, rfl, rfl, congrArg (cwd :: ·) h1.refs,
        (h1.unlocked ip).locks.trans (List.erase_cons_head ip [])⟩
    refine Typed.bind (typed_iput h4 List.mem_cons_self (by simp)) ?_
    rintro _ L5 rfl
    have h5 := h4.dropHead
    refine Typed.mono (Typed.op ⟨h5.alive, h5.cwd, by simp [h5.refs], h5.stage, by simp [h5.locks]⟩) ?_
    rintro _ L6 rfl
    have h6 := h5.dropRef ip
    exact ⟨h6.refs.trans (List.erase_cons_head ip []), h6.locks, h1.files.trans hL.files,
      h1.gone.trans hL.gone, h6.stage, fun _ => rfl⟩

/-- The inode of a file in a descriptor is locked for `x`; then the program goes on. -/
theorem typed_onFile {α : Type} {x : Call α} {k : α → Call Unit} {w : Bool}
    (hL : L.Calls) (hopened : Fact.opened f ip w ∈ L.know)
    (hx : ∀ L', L.After [] [ip] L' → Fact.opened f ip w ∈ L'.know →
      (∃ t, Fact.type ip t ∈ L'.know) → Typed (rules md) x (fun _ L'' => L'' = L') L')
    (hk : ∀ r L', L'.Calls → Fact.opened f ip w ∈ L'.know →
      Returns md (k r) L') :
    Returns md (do
      ilock ip
      let r ← x
      Op.unlock ip
      k r) L := by
  refine Typed.bind (typed_ilockIn hL.after (.inr ⟨f, w, hopened⟩) (.inl rfl)) ?_
  rintro _ L1 ⟨-, h1, hk1, t, ht, -⟩
  have hopened1 := hk1 _ hopened (by simp)
  refine Typed.bind (hx L1 h1 hopened1 ⟨t, ht⟩) ?_
  rintro r L2 rfl
  refine Typed.bind (Typed.op ⟨h1.alive, by simp [h1.locks], h1.stage⟩) ?_
  rintro _ L3 rfl
  have h3 := h1.unlockHead
  exact hk r _ { h3.idle hL with alive := h3.alive } ⟨hopened1, .inr (by simp), by simp, by simp⟩

/-- A system call on a descriptor: the file is read from the table, and then its fields. -/
theorem typed_withFile (fd : Fin NOFILE) {k : Fin NFILE → OpenFile → Call Unit} (hL : L.Calls)
    (hk : ∀ f fl L', L'.Calls → L'.slots fd = some f →
      (fl.type = .FD_INODE ∨ fl.type = .FD_DEVICE → Fact.opened f fl.ip fl.writable ∈ L'.know) →
      Returns md (k f fl) L') :
    Returns md (do
      let f ← (liftM (Op.argFile fd) : Call (Option (Fin NFILE)))
      match f with
      | none => return
      | some f => do
        let fl ← Op.fileFields f
        k f fl) L := by
  refine Typed.bind (Typed.op ⟨hL.alive, (by rw [hL.gone]; simp : L.gone ≠ some fd)⟩) ?_
  rintro r L1 ⟨hr, rfl⟩
  cases r with
  | none => exact hL.toIdle
  | some f =>
    refine Typed.bind (Typed.op ⟨hL.alive, fd, hr.symm⟩) ?_
    intro fl L2 h2
    apply hk f fl L2
    · rw [h2]
      split_ifs
      · exact { refs := hL.refs, locks := hL.locks, files := hL.files, gone := hL.gone,
                stage := hL.stage, cwd := hL.cwd, alive := hL.alive }
      · exact hL
    · rw [h2]
      split_ifs
      · exact hr.symm
      · exact hr.symm
    · intro htype
      rw [h2, if_pos htype]
      exact Set.mem_insert _ _

theorem typed_sysRead (fd : Fin NOFILE) (m : ℕ) (hL : L.Calls) : Returns md (sysRead fd m) L := by
  apply typed_withFile fd hL
  intro f fl L1 hL1 _ hopened
  split_ifs with hread
  · refine typed_onFile (x := liftM (Op.read f fl.ip m)) (k := fun _ => pure ()) hL1
      (hopened (.inl hread.2)) ?_ fun _ _ h _ => h.toIdle
    intro L2 h2 hop _
    refine Typed.mono (Typed.op ⟨h2.alive, by simp [h2.locks], fl.writable, hop⟩) ?_
    rintro _ L3 rfl
    rfl
  · exact hL1.toIdle

theorem typed_sysFstat (fd : Fin NOFILE) (hL : L.Calls) : Returns md (sysFstat fd) L := by
  apply typed_withFile fd hL
  intro f fl L1 hL1 _ hopened
  split_ifs with htype
  · exact typed_onFile (x := pure ()) (k := fun _ => pure ()) hL1 (hopened htype)
      (fun _ _ _ _ => rfl) fun _ _ h _ => h.toIdle
  · exact hL1.toIdle

theorem typed_writeFile (bytes : ℕ → UInt8) (fuel k m : ℕ) (hL : L.Calls)
    (hopened : Fact.opened f ip true ∈ L.know) :
    Returns md (writeFile f ip bytes fuel k m) L := by
  induction fuel generalizing L k with
  | zero => exact hL.toIdle
  | succ fuel ih =>
    unfold writeFile
    split_ifs
    · apply typed_onFile hL hopened
      · intro L1 h1 hop ht
        refine Typed.mono (Typed.op ⟨h1.alive, h1.stage, by simp [h1.locks], hop, ht⟩) ?_
        rintro _ L2 rfl
        rfl
      · intro r L1 hL1 hop
        split_ifs
        · exact ih _ hL1 hop
        · exact hL1.toIdle
    · exact hL.toIdle

theorem typed_sysWrite (fd : Fin NOFILE) (bytes : ℕ → UInt8) (m : ℕ) (hL : L.Calls) :
    Returns md (sysWrite fd bytes m) L := by
  apply typed_withFile fd hL
  intro f fl L1 hL1 _ hopened
  split_ifs with hwrite
  · have h := hopened (.inl hwrite.2)
    rw [hwrite.1] at h
    exact typed_writeFile bytes m 0 m hL1 h
  · exact hL1.toIdle

theorem typed_sysDup (fd : Fin NOFILE) (hL : L.Calls) (hk : L.know = ∅) :
    Returns md (sysDup fd) L := by
  refine Typed.bind (Typed.op ⟨hL.alive, hL.gone, by simp [hk]⟩) ?_
  intro r L1 h1
  cases r with
  | none =>
    subst h1
    exact hL.toIdle
  | some fd' =>
    obtain ⟨f, -, -, rfl⟩ := h1
    exact ⟨hL.refs, hL.locks, hL.files, hL.gone, hL.stage, hL.cwd⟩

theorem Loc.Calls.ownLocks (hL : L.Calls) : L.OwnLocks := by
  intro i hi
  rw [hL.locks] at hi
  cases hi

theorem typed_sysClose (fd : Fin NOFILE) (hL : L.Calls) : Returns md (sysClose fd) L := by
  refine Typed.bind (Typed.op ⟨hL.alive, hL.gone, hL.ownLocks⟩) ?_
  rintro r L1 ⟨-, rfl⟩
  cases r with
  | none => exact ⟨hL.refs, hL.locks, hL.files, hL.gone, hL.stage, hL.cwd⟩
  | some f =>
    refine Typed.mono (typed_fileclose hL.alive hL.stage rfl hL.ownLocks) ?_
    intro _ L2 h2
    exact ⟨h2.refs.trans hL.refs, h2.locks.trans hL.locks, h2.files.trans hL.files,
      h2.gone.trans hL.gone, h2.stage, fun _ => h2.cwd.symm ▸ hL.cwd hL.alive⟩

theorem typed_execReads (reads : List (ℕ × ℕ)) (ha : L.alive = true) (hi : ip ∈ L.locks) :
    Typed (rules md) (execReads ip reads) (fun _ L' => L' = L) L := by
  induction reads with
  | nil => exact rfl
  | cons r reads ih =>
    refine Typed.bind (Typed.op ⟨ha, hi⟩) ?_
    rintro _ L1 rfl
    exact ih

theorem typed_sysExec (path : List UInt8) (reads : List (ℕ × ℕ)) (hL : L.Calls) :
    Returns md (sysExec path reads) L := by
  apply typed_nameiLock hL
  intro ip L1 t h1 ht
  refine Typed.bind (typed_execReads reads h1.alive (by simp [h1.locks])) ?_
  rintro _ L2 rfl
  exact typed_giveUp hL h1

theorem typed_sysFork (np : Fin NPROC) (hL : L.Calls) (hk : L.know = ∅) :
    Returns md (sysFork np) L := by
  refine Typed.mono (Typed.op ⟨hL.alive, hL.gone, hL.cwd hL.alive, by simp [hk]⟩) ?_
  rintro _ L1 rfl
  exact hL.toIdle

/-- The loop of `kexit` empties the descriptors in `fds` and fills none. -/
theorem typed_exitFiles (fds : List (Fin NOFILE)) (hL : L.Calls) :
    Typed (rules md) (exitFiles fds) (fun _ L' => L'.Calls ∧
      ∀ fd, L'.slots fd = none ∨ fd ∉ fds ∧ L'.slots fd = L.slots fd) L := by
  induction fds generalizing L with
  | nil => exact ⟨hL, fun fd => .inr ⟨by simp, rfl⟩⟩
  | cons fd fds ih =>
    have hrest (L1 : Loc) (hL1 : L1.Calls) (hslots : L1.slots = update L.slots fd none) :
        Typed (rules md) (exitFiles fds) (fun _ L' => L'.Calls ∧
          ∀ fd', L'.slots fd' = none ∨ fd' ∉ fd :: fds ∧ L'.slots fd' = L.slots fd') L1 := by
      refine Typed.mono (ih hL1) ?_
      rintro _ L2 ⟨hL2, h2⟩
      refine ⟨hL2, ?_⟩
      intro fd'
      rcases h2 fd' with h | ⟨hmem, h⟩
      · exact .inl h
      · by_cases hfd : fd' = fd
        · left
          rw [h, hslots, hfd, update_self]
        · right
          rw [hslots, update_of_ne hfd] at h
          exact ⟨by simp [hfd, hmem], h⟩
    refine Typed.bind (Typed.op ⟨hL.alive, hL.gone, hL.ownLocks⟩) ?_
    rintro r L1 ⟨-, rfl⟩
    cases r with
    | none =>
      exact hrest _ { refs := hL.refs, locks := hL.locks, files := hL.files, gone := rfl,
                      stage := hL.stage, cwd := hL.cwd, alive := hL.alive } rfl
    | some f =>
      refine Typed.bind (typed_fileclose hL.alive hL.stage rfl hL.ownLocks) ?_
      intro _ L2 h2
      refine Typed.bind (Typed.op ⟨h2.alive, h2.gone⟩) ?_
      rintro _ L3 rfl
      exact hrest _ { refs := h2.refs.trans hL.refs, locks := h2.locks.trans hL.locks,
                      files := h2.files.trans hL.files, gone := rfl, stage := h2.stage,
                      cwd := fun _ => h2.cwd.symm ▸ hL.cwd hL.alive, alive := h2.alive } h2.slots

theorem mem_fdIndices (fd : Fin NOFILE) : fd ∈ fdIndices := by
  unfold fdIndices
  exact List.mem_finRange fd

theorem typed_sysExit (hL : L.Calls) : Returns md sysExit L := by
  refine Typed.bind (typed_exitFiles fdIndices hL) ?_
  rintro _ L1 ⟨hL1, hslots⟩
  refine Typed.bind (Typed.op ⟨hL1.alive, hL1.cwd hL1.alive⟩) ?_
  rintro cwd L2 ⟨-, rfl⟩
  have h2 : ({ L1.addRef cwd with cwd := none } : Loc).After [cwd] []
      { L1.addRef cwd with cwd := none } :=
    ⟨hL1.alive, hL1.stage, rfl, rfl, rfl, rfl, congrArg (cwd :: ·) hL1.refs, hL1.locks⟩
  refine Typed.bind (typed_iput h2 List.mem_cons_self (by simp)) ?_
  rintro _ L3 rfl
  have h3 := h2.dropHead
  refine Typed.mono (Typed.op ⟨h3.alive, h3.cwd, h3.refs, h3.locks, hL1.files, hL1.gone, h3.stage,
    fun fd => (hslots fd).resolve_right fun h => h.1 (mem_fdIndices fd)⟩) ?_
  rintro _ L4 rfl
  exact ⟨h3.refs, h3.locks, hL1.files, hL1.gone, h3.stage, fun h => by cases h⟩

theorem typed_syscall (c : Syscall) (hL : L.Calls) (hk : L.know = ∅) : Returns md c.prog L := by
  cases c with
  | link old new => exact typed_sysLink old new hL
  | unlink path => exact typed_sysUnlink path hL
  | «open» path omode => exact typed_sysOpen path omode hL
  | mkdir path => exact typed_sysCreate path 0 0 hL (by decide)
  | mknod path major minor => exact typed_sysCreate path major minor hL (by decide)
  | chdir path => exact typed_sysChdir path hL
  | read fd m => exact typed_sysRead fd m hL
  | write fd bytes m => exact typed_sysWrite fd bytes m hL
  | fstat fd => exact typed_sysFstat fd hL
  | dup fd => exact typed_sysDup fd hL hk
  | close fd => exact typed_sysClose fd hL
  | exec path reads => exact typed_sysExec path reads hL
  | fork np => exact typed_sysFork np hL hk
  | exit => exact typed_sysExit hL

end Xv6.Inodes
