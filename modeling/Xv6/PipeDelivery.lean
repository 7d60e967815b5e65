import Xv6.PipeRing

/-! What the readers of a pipe get. A step is what one call does from taking `pi->lock`, or waking
up with it, to giving it back. -/
namespace Xv6.Threads
open Function

/-- A pipe, with the memory of each process. -/
structure PipeUsers where
  pipe : PipeBuf
  mem : Fin NPROC → UInt64 → UInt8

/-- How a call leaves the lock. -/
inductive Turn where
  | sleeps
  | returns (r : ℤ)

/-- The loop of `pipewrite` from byte `i` on, with `k` bytes to go. `killed` is what the function
of this name says at each byte, and `copyin` gives `none` for a bad address. -/
def pipewriteLoop (killed : ℕ → Bool) (copyin : UInt64 → Option UInt8) (addr : UInt64) :
    ℕ → ℕ → PipeBuf → PipeBuf × Turn
  | 0, i, b => (b, .returns i)
  | k+1, i, b =>
    if !b.readopen || killed i then (b, .returns (-1))
    else if b.full then (b, .sleeps)
    else
      match copyin (addr+.ofNat i) with
      | none => (b, .returns i)
      | some ch => pipewriteLoop killed copyin addr k (i+1) (b.put ch)

/-- The copy loop of `piperead` from byte `i` on, with `k` bytes to go: the pipe, the memory of
the caller and the count. A byte leaves the pipe before `copyout` tries its address. -/
def pipereadLoop (writable : UInt64 → Bool) (addr : UInt64) :
    ℕ → ℕ → PipeBuf → (UInt64 → UInt8) → PipeBuf × (UInt64 → UInt8) × ℕ
  | 0, i, b, mem => (b, mem, i)
  | k+1, i, b, mem =>
    if b.empty then (b, mem, i)
    else if writable (addr+.ofNat i) then
      pipereadLoop writable addr k (i+1) b.took (update mem (addr+.ofNat i) b.next)
    else (b.took, mem, i)

inductive PipeStep where
  /-- `pipewrite`, with `i` bytes written so far -/
  | write (p : Fin NPROC) (addr : UInt64) (n : Int32) (i : ℕ) (readable : UInt64 → Bool)
      (killed : ℕ → Bool)
  | read (p : Fin NPROC) (addr : UInt64) (n : Int32) (writable : UInt64 → Bool) (killed : Bool)
  /-- `pipeclose` -/
  | close (writable : Bool)
  /-- The processes store what they like. -/
  | user (mem : Fin NPROC → UInt64 → UInt8)

def PipeUsers.step (w : PipeUsers) : PipeStep → PipeUsers × Turn
  | .write p addr n i readable killed =>
    let r := pipewriteLoop killed (fun a => if readable a then some (w.mem p a) else none) addr
      (n.toInt.toNat-i) i w.pipe
    ({ w with pipe := r.1 }, r.2)
  | .read p addr n writable killed =>
    if w.pipe.empty && w.pipe.writeopen then (w, if killed then .returns (-1) else .sleeps)
    else
      let r := pipereadLoop writable addr n.toInt.toNat 0 w.pipe (w.mem p)
      ({ pipe := r.1, mem := update w.mem p r.2.1 }, .returns r.2.2)
  | .close writable =>
    ({ w with pipe :=
        if writable then { w.pipe with writeopen := false }
        else { w.pipe with readopen := false } }, .returns 0)
  | .user mem => ({ w with mem := mem }, .returns 0)

/-- The `k`th byte to come out of the pipe. -/
def PipeBuf.nth (b : PipeBuf) (k : ℕ) : UInt8 := b.data ((b.nread.toNat+k)%PIPESIZE.toNat)

/-- The bytes that left the pipe from one state to another. -/
def removedBytes (b b' : PipeBuf) : List UInt8 :=
  (List.range (b'.nread-b.nread).toNat).map b.nth

/-- The bytes that stand in the memory of a reader and are counted in what `piperead` returns. -/
def deliveredBytes (w' : PipeUsers) : PipeStep → Turn → List UInt8
  | .read p addr _ _ _, .returns r => (List.range r.toNat).map fun k => w'.mem p (addr+.ofNat k)
  | _, _ => []

namespace PipeUsers

def removed (w : PipeUsers) : List PipeStep → List UInt8
  | [] => []
  | c :: cs => removedBytes w.pipe (w.step c).1.pipe++(w.step c).1.removed cs

def delivered (w : PipeUsers) : List PipeStep → List UInt8
  | [] => []
  | c :: cs => deliveredBytes (w.step c).1 c (w.step c).2++(w.step c).1.delivered cs

/-- A reader has a writable address for each byte that is in the pipe and that it asks for. -/
def Fits (w : PipeUsers) : PipeStep → Prop
  | .read _ addr n writable _ =>
    ∀ k < min n.toInt.toNat (w.pipe.nwrite-w.pipe.nread).toNat, writable (addr+.ofNat k) = true
  | _ => True

def AllFit (w : PipeUsers) : List PipeStep → Prop
  | [] => True
  | c :: cs => w.Fits c ∧ (w.step c).1.AllFit cs

end PipeUsers

/-- The `m` bytes delivered by the copy loop, `taken` from the pipe. -/
structure Copied (writable : UInt64 → Bool) (addr : UInt64) (k i : ℕ) (b : PipeBuf)
    (mem : UInt64 → UInt8) (r : PipeBuf × (UInt64 → UInt8) × ℕ) (m taken : ℕ) : Prop where
  count : r.2.2 = i+m
  pipe : r.1 = { b with nread := b.nread+.ofNat taken }
  le : taken ≤ k
  all : (∀ j < min k (b.nwrite-b.nread).toNat, writable (addr+.ofNat (i+j)) = true) → taken = m
  lost : ¬ (∀ j < min k (b.nwrite-b.nread).toNat, writable (addr+.ofNat (i+j)) = true) → taken = m+1
  kept : ∀ j < i, r.2.1 (addr+.ofNat j) = mem (addr+.ofNat j)
  bytes : ∀ j < m, r.2.1 (addr+.ofNat (i+j)) = b.nth j

theorem addr_ne (addr : UInt64) {i j : ℕ} (hi : i < 2^32) (hj : j < 2^32) (h : j ≠ i) :
    addr+.ofNat j ≠ addr+.ofNat i := by
  intro he
  have hnat := congrArg UInt64.toNat ((UInt64.add_right_inj addr).mp he)
  rw [UInt64.toNat_ofNat', UInt64.toNat_ofNat'] at hnat
  omega

variable {m : ℕ} {r : PipeBuf × (UInt64 → UInt8) × ℕ}

section Loop
variable {writable : UInt64 → Bool} {addr : UInt64} {k i : ℕ} {b : PipeBuf} {mem : UInt64 → UInt8}

theorem Copied.stop (h : min k (b.nwrite-b.nread).toNat = 0) :
    Copied writable addr k i b mem (b, mem, i) 0 0 where
  count := rfl
  pipe := by simp
  le := Nat.zero_le _
  all _ := rfl
  lost hnot := absurd (fun j hj => absurd hj (by omega)) hnot
  kept _ _ := rfl
  bytes j hj := absurd hj (by omega)

theorem Copied.fail (hb : b.empty = false) (hw : writable (addr+.ofNat i) = false) :
    Copied writable addr (k+1) i b mem (b.took, mem, i) 0 1 where
  count := rfl
  pipe := rfl
  le := Nat.succ_le_succ (Nat.zero_le _)
  all hall := by
    have hpos : (b.nwrite-b.nread).toNat ≠ 0 := fun h => by
      rw [b.empty_iff.mpr h] at hb
      cases hb
    have h0 := hall 0 (by omega)
    rw [Nat.add_zero, hw] at h0
    cases h0
  lost _ := rfl
  kept _ _ := rfl
  bytes j hj := absurd hj (by omega)

theorem Copied.step {taken : ℕ} (hik : i+(k+1) < 2^32)
    (hb : b.empty = false) (hw : writable (addr+.ofNat i) = true)
    (h : Copied writable addr k (i+1) b.took (update mem (addr+.ofNat i) b.next) r m taken) :
    Copied writable addr (k+1) i b mem r (m+1) (taken+1) := by
  have hpos : (b.nwrite-b.nread).toNat ≠ 0 := fun h => by
    rw [b.empty_iff.mpr h] at hb
    cases hb
  have hleft : (b.took.nwrite-b.took.nread).toNat = (b.nwrite-b.nread).toNat-1 := by
    have hlt' := b.nread.toNat_lt
    have hone : (1 : UInt32).toNat = 1 := rfl
    rw [UInt32.toNat_sub] at hpos
    rw [UInt32.toNat_sub, UInt32.toNat_sub, PipeBuf.took]
    dsimp only
    rw [UInt32.toNat_add]
    omega
  have hiff : (∀ j < min (k+1) (b.nwrite-b.nread).toNat, writable (addr+.ofNat (i+j)) = true) ↔
      ∀ j < min k (b.took.nwrite-b.took.nread).toNat, writable (addr+.ofNat (i+1+j)) = true := by
    constructor
    · intro hall j hj
      rw [Nat.add_assoc, Nat.add_comm 1 j]
      exact hall (j+1) (by omega)
    · intro hall j hj
      cases j with
      | zero => exact hw
      | succ j =>
        rw [← Nat.add_assoc, Nat.add_right_comm]
        exact hall j (by omega)
  constructor
  · rw [h.count]
    omega
  · rw [h.pipe, PipeBuf.took]
    rw [UInt32.add_assoc, UInt32.add_comm 1, UInt32.ofNat_add]
    rfl
  · exact Nat.succ_le_succ h.le
  · exact fun hall => congrArg (·+1) (h.all (hiff.mp hall))
  · exact fun hnot => congrArg (·+1) (h.lost (mt hiff.mpr hnot))
  · intro j hj
    rw [h.kept j (by omega), update_of_ne (addr_ne addr (by omega) (by omega) (by omega))]
  · intro j hj
    cases j with
    | zero =>
      rw [Nat.add_zero, h.kept i (Nat.lt_succ_self i), update_self, PipeBuf.next]
      rfl
    | succ j =>
      have hplace : (b.took.nread.toNat+j)%PIPESIZE.toNat =
          (b.nread.toNat+(j+1))%PIPESIZE.toNat := by
        have hsize : PIPESIZE.toNat = 512 := rfl
        have hone : (1 : UInt32).toNat = 1 := rfl
        rw [PipeBuf.took, UInt32.toNat_add, hsize]
        omega
      rw [← Nat.add_assoc, Nat.add_right_comm, h.bytes j (by omega), PipeBuf.nth, hplace]
      rfl

end Loop

theorem pipereadLoop_copied (writable : UInt64 → Bool) (addr : UInt64) (k : ℕ) :
    ∀ (i : ℕ) (b : PipeBuf) (mem : UInt64 → UInt8), i+k < 2^32 → ∃ m taken,
      Copied writable addr k i b mem (pipereadLoop writable addr k i b mem) m taken := by
  induction k with
  | zero => exact fun i b mem _ => ⟨0, 0, .stop (Nat.zero_min _)⟩
  | succ k ih =>
    intro i b mem hik
    rw [pipereadLoop]
    by_cases hb : b.empty = true
    · rw [if_pos hb]
      refine ⟨0, 0, .stop ?_⟩
      rw [b.empty_iff.mp hb, Nat.min_zero]
    rw [if_neg hb]
    have hb' := Bool.eq_false_iff.mpr hb
    split_ifs with hw
    · obtain ⟨m, taken, h⟩ :=
        ih (i+1) b.took (update mem (addr+.ofNat i) b.next) (by omega)
      exact ⟨m+1, taken+1, h.step hik hb' hw⟩
    · exact ⟨0, 1, .fail hb' (Bool.eq_false_iff.mpr hw)⟩

theorem pipewriteLoop_nread (killed : ℕ → Bool) (copyin : UInt64 → Option UInt8) (addr : UInt64)
    (k : ℕ) : ∀ (i : ℕ) (b : PipeBuf),
      (pipewriteLoop killed copyin addr k i b).1.nread = b.nread := by
  induction k with
  | zero => exact fun _ _ => rfl
  | succ k ih =>
    intro i b
    rw [pipewriteLoop]
    split
    · rfl
    · split
      · rfl
      · split
        · rfl
        · rw [ih]
          rfl

theorem Copied.removed {writable : UInt64 → Bool} {addr : UInt64} {k taken : ℕ} {b : PipeBuf}
    {mem : UInt64 → UInt8}
    (h : Copied writable addr k 0 b mem r m taken) (hk : k < 2^32) :
    removedBytes b r.1 = (List.range taken).map b.nth := by
  have hle := h.le
  rw [removedBytes, h.pipe]
  rw [UInt32.add_comm, UInt32.add_sub_cancel, UInt32.toNat_ofNat', Nat.mod_eq_of_lt (by omega)]

theorem Copied.delivered {w : PipeUsers} {p : Fin NPROC} {n : Int32} {killed : Bool}
    {writable : UInt64 → Bool} {addr : UInt64} {k taken : ℕ}
    (h : Copied writable addr k 0 w.pipe (w.mem p) r m taken) :
    deliveredBytes { pipe := r.1, mem := update w.mem p r.2.1 } (.read p addr n writable killed)
      (.returns r.2.2) = (List.range m).map w.pipe.nth := by
  rw [h.count, Nat.zero_add]
  refine List.map_congr_left fun k hk => ?_
  have hb := h.bytes k (List.mem_range.mp hk)
  rw [Nat.zero_add] at hb
  dsimp only
  rwa [update_self]

theorem removedBytes_of_nread {b b' : PipeBuf} (h : b'.nread = b.nread) : removedBytes b b' = [] := by
  rw [removedBytes, h, UInt32.sub_self]
  rfl

namespace PipeUsers

/-- A step delivers what it takes, unless a reader runs out of writable addresses: then one byte
is lost. -/
theorem step_bytes (w : PipeUsers) (c : PipeStep) :
    w.Fits c ∧ deliveredBytes (w.step c).1 c (w.step c).2 = removedBytes w.pipe (w.step c).1.pipe ∨
    ¬ w.Fits c ∧ (deliveredBytes (w.step c).1 c (w.step c).2).length <
      (removedBytes w.pipe (w.step c).1.pipe).length := by
  cases c with
  | write p addr n i readable killed =>
    exact .inl ⟨trivial, (removedBytes_of_nread (pipewriteLoop_nread ..)).symm⟩
  | close writable =>
    refine .inl ⟨trivial, (removedBytes_of_nread ?_).symm⟩
    cases writable <;> rfl
  | user mem => exact .inl ⟨trivial, (removedBytes_of_nread rfl).symm⟩
  | read p addr n writable killed =>
    rw [step]
    by_cases hwait : (w.pipe.empty && w.pipe.writeopen) = true
    · rw [if_pos hwait]
      have h0 := w.pipe.empty_iff.mp ((Bool.and_eq_true _ _).mp hwait).1
      refine .inl ⟨?_, ?_⟩
      · intro k hk
        omega
      · rw [removedBytes_of_nread rfl]
        cases killed <;> rfl
    · rw [if_neg hwait]
      have hn := n.toInt_lt
      obtain ⟨m, taken, h⟩ := pipereadLoop_copied writable addr n.toInt.toNat 0 w.pipe (w.mem p)
        (by omega)
      rw [h.removed (by omega), h.delivered]
      have hfits : w.Fits (.read p addr n writable killed) ↔ ∀ j < min n.toInt.toNat
          (w.pipe.nwrite-w.pipe.nread).toNat, writable (addr+.ofNat (0+j)) = true := by
        simp only [Fits, Nat.zero_add]
      by_cases hall : w.Fits (.read p addr n writable killed)
      · rw [h.all (hfits.mp hall)]
        exact .inl ⟨hall, rfl⟩
      · refine .inr ⟨hall, ?_⟩
        simp [h.lost (mt hfits.mpr hall)]

theorem delivered_length_le (cs : List PipeStep) : ∀ w : PipeUsers,
    (w.delivered cs).length ≤ (w.removed cs).length := by
  induction cs with
  | nil => exact fun _ => le_rfl
  | cons c cs ih =>
    intro w
    rw [delivered, removed, List.length_append, List.length_append]
    have hrest := ih (w.step c).1
    rcases w.step_bytes c with ⟨-, h⟩ | ⟨-, h⟩
    · rw [h]
      omega
    · omega

/-- No byte is lost just when every reader has writable addresses for what it takes. -/
theorem pipe_lossless_iff (w : PipeUsers) (cs : List PipeStep) :
    w.delivered cs = w.removed cs ↔ w.AllFit cs := by
  induction cs generalizing w with
  | nil => exact ⟨fun _ => trivial, fun _ => rfl⟩
  | cons c cs ih =>
    rw [delivered, removed, AllFit, ← ih]
    rcases w.step_bytes c with ⟨hfit, h⟩ | ⟨hnot, h⟩
    · rw [h, List.append_cancel_left_eq]
      exact ⟨fun hrest => ⟨hfit, hrest⟩, fun hrest => hrest.2⟩
    · refine ⟨fun heq => ?_, fun hall => absurd hall.1 hnot⟩
      have hlen := congrArg List.length heq
      rw [List.length_append, List.length_append] at hlen
      have hrest := delivered_length_le cs (w.step c).1
      omega

/-- The one byte of the pipe is gone when `piperead` returns 0 for a bad address. -/
def oneByte : PipeUsers where
  pipe := { data := fun _ => 65, nread := 0, nwrite := 1, readopen := true, writeopen := true }
  mem := fun _ _ => 0

theorem byte_lost : oneByte.delivered [.read 0 4096 1 (fun _ => false) false] = [] ∧
    oneByte.removed [.read 0 4096 1 (fun _ => false) false] = [65] ∧
    (oneByte.step (.read 0 4096 1 (fun _ => false) false)).1.pipe.empty = true := by
  decide

end PipeUsers
end Xv6.Threads
