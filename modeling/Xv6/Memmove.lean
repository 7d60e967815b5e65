import Mathlib.Algebra.Group.Nat.Defs
import Mathlib.Logic.Function.Basic
import Mathlib.Tactic.SplitIfs

/-! `memmove` of the kernel (`string.c`) and of the user library (`ulib.c`), on a memory with
64-bit addresses. -/
namespace Xv6.Bytes
open Function

/-- A memory with cells of type `β`, which no copy looks into. -/
abbrev Memory (β : Type) := BitVec 64 → β

variable {β : Type}

/-- `while(n-- > 0) *d++ = *s++;` -/
def copyUp : ℕ → BitVec 64 → BitVec 64 → Memory β → Memory β
  | 0, _, _, mem => mem
  | n+1, d, s, mem => copyUp n (d+1) (s+1) (update mem d (mem s))

/-- `while(n-- > 0) *--d = *--s;` -/
def copyDown : ℕ → BitVec 64 → BitVec 64 → Memory β → Memory β
  | 0, _, _, mem => mem
  | n+1, d, s, mem => copyDown n (d-1) (s-1) (update mem (d-1) (mem (s-1)))

/-- The kernel's, with an unsigned length: backwards when the source begins before the destination
and reaches into it. -/
def memmove (dst src : BitVec 64) (n : BitVec 32) (mem : Memory β) : BitVec 64 × Memory β :=
  if n = 0 then (dst, mem)
  else if src < dst ∧ src+n.setWidth 64 > dst then
    (dst, copyDown n.toNat (dst+n.setWidth 64) (src+n.setWidth 64) mem)
  else (dst, copyUp n.toNat dst src mem)

/-- The user library's, with a signed length: backwards unless the source begins after the
destination. -/
def Ulib.memmove (vdst vsrc : BitVec 64) (n : BitVec 32) (mem : Memory β) : BitVec 64 × Memory β :=
  if vsrc > vdst then (vdst, copyUp n.toInt.toNat vdst vsrc mem)
  else (vdst, copyDown n.toInt.toNat (vdst+n.signExtend 64) (vsrc+n.signExtend 64) mem)

/-- `mem'` is `mem` after a copy through a temporary. -/
structure Moved (dst src : BitVec 64) (n : ℕ) (mem mem' : Memory β) : Prop where
  copied : ∀ i < n, mem' (dst+BitVec.ofNat 64 i) = mem (src+BitVec.ofNat 64 i)
  frame : ∀ a, (∀ i < n, a ≠ dst+BitVec.ofNat 64 i) → mem' a = mem a

section
variable {d s : BitVec 64} {n : ℕ}

theorem Moved.refl (mem : Memory β) : Moved d s 0 mem mem :=
  ⟨fun i hi => absurd hi (Nat.not_lt_zero i), fun _ _ => rfl⟩

/-- Going up, every byte is read before it is overwritten unless the source reaches into the
destination from below. -/
theorem copyUp_moved (hd : d.toNat+n ≤ 2^64) (hs : s.toNat+n ≤ 2^64)
    (hsafe : d ≤ s ∨ s.toNat+n ≤ d.toNat) (mem : Memory β) : Moved d s n mem (copyUp n d s mem) := by
  induction n generalizing d s mem with
  | zero => exact .refl mem
  | succ n ih =>
    have h := ih (d := d+1) (s := s+1) (by bv_omega) (by bv_omega) (by bv_omega)
      (update mem d (mem s))
    rw [copyUp]
    constructor
    · intro i hi
      cases i with
      | zero =>
        have hfirst := h.frame d fun i hi => by bv_omega
        simpa using hfirst
      | succ i =>
        have hnext := h.copied i (by omega)
        rw [update_of_ne (by bv_omega)] at hnext
        rw [show d+BitVec.ofNat 64 (i+1) = d+1+BitVec.ofNat 64 i by bv_omega,
          show s+BitVec.ofNat 64 (i+1) = s+1+BitVec.ofNat 64 i by bv_omega]
        exact hnext
    · intro a ha
      have hne : a ≠ d := by simpa using ha 0 (Nat.succ_pos n)
      rw [h.frame a fun i hi => ?_, update_of_ne hne]
      have := ha (i+1) (by omega)
      bv_omega

/-- Going down, every byte is read before it is overwritten unless the destination reaches into the
source from below. -/
theorem copyDown_moved (hd : d.toNat+n ≤ 2^64) (hs : s.toNat+n ≤ 2^64)
    (hsafe : s ≤ d ∨ d.toNat+n ≤ s.toNat) (mem : Memory β) :
    Moved d s n mem (copyDown n (d+BitVec.ofNat 64 n) (s+BitVec.ofNat 64 n) mem) := by
  induction n generalizing mem with
  | zero => exact .refl mem
  | succ n ih =>
    have hend (x : BitVec 64) : x+BitVec.ofNat 64 (n+1)-1 = x+BitVec.ofNat 64 n := by bv_omega
    have h := ih (by omega) (by omega) (by bv_omega)
      (update mem (d+BitVec.ofNat 64 n) (mem (s+BitVec.ofNat 64 n)))
    rw [copyDown, hend, hend]
    constructor
    · intro i hi
      by_cases hlast : i = n
      · subst hlast
        rw [h.frame _ fun j hj => by bv_omega, update_self]
      · rw [h.copied i (by omega), update_of_ne (by bv_omega)]
    · intro a ha
      rw [h.frame a fun i hi => ha i (by omega), update_of_ne (ha n (Nat.lt_succ_self n))]

end

section
variable {dst src : BitVec 64} {n : ℕ} (hn : n < 2^31) (hdst : dst.toNat+n ≤ 2^64)
  (hsrc : src.toNat+n ≤ 2^64) (mem : Memory β)
include hn hdst hsrc

theorem kernel_memmove_moved : Moved dst src n mem (memmove dst src (BitVec.ofNat 32 n) mem).2 := by
  have hnat : (BitVec.ofNat 32 n).toNat = n := by bv_omega
  have hwide : (BitVec.ofNat 32 n).setWidth 64 = BitVec.ofNat 64 n := by bv_omega
  unfold memmove
  rw [hnat, hwide]
  split_ifs with hzero hover
  · obtain rfl : n = 0 := by bv_omega
    exact .refl mem
  · exact copyDown_moved hdst hsrc (by bv_omega) mem
  · exact copyUp_moved hdst hsrc (by bv_omega) mem

theorem user_memmove_moved :
    Moved dst src n mem (Ulib.memmove dst src (BitVec.ofNat 32 n) mem).2 := by
  have hpos : (BitVec.ofNat 32 n).msb = false := by
    rw [BitVec.msb_eq_false_iff_two_mul_lt]
    bv_omega
  have hint : (BitVec.ofNat 32 n).toInt.toNat = n := by
    rw [BitVec.toInt_eq_toNat_of_msb hpos]
    bv_omega
  have hwide : (BitVec.ofNat 32 n).signExtend 64 = BitVec.ofNat 64 n := by
    rw [BitVec.signExtend_eq_setWidth_of_msb_false hpos]
    bv_omega
  unfold Ulib.memmove
  rw [hint, hwide]
  split_ifs with habove
  · exact copyUp_moved hdst hsrc (by bv_omega) mem
  · exact copyDown_moved hdst hsrc (by bv_omega) mem

end

/-- Both directions of copying, chosen by either test, end as a copy through a temporary. -/
theorem memmove_moved (mem : Memory β) (dst src : BitVec 64) (n : ℕ) (hn : n < 2^31)
    (hdst : dst.toNat+n ≤ 2^64) (hsrc : src.toNat+n ≤ 2^64) :
    Moved dst src n mem (memmove dst src (BitVec.ofNat 32 n) mem).2 ∧
    Moved dst src n mem (Ulib.memmove dst src (BitVec.ofNat 32 n) mem).2 :=
  ⟨kernel_memmove_moved hn hdst hsrc mem, user_memmove_moved hn hdst hsrc mem⟩

/-- Three cells move up by one over themselves. -/
theorem memmove_moved_overlapping :
    Moved 1 0 3 (fun a => a.toNat) (memmove 1 0 3 fun a => a.toNat).2 ∧
    Moved 1 0 3 (fun a => a.toNat) (Ulib.memmove 1 0 3 fun a => a.toNat).2 :=
  memmove_moved (fun a => a.toNat) 1 0 3 (by decide) (by decide) (by decide)

end Xv6.Bytes
