import Xv6.KernelThreads

/-! The buffer of a pipe as a queue. The counters are 32 bits wide and wrap around; the place of a
byte is its number modulo `PIPESIZE`. -/
namespace Xv6.Threads

def putBytes : List Event → List UInt8
  | [] => []
  | .put _ b :: es => putBytes es ++ [b]
  | _ :: es => putBytes es

def takenBytes : List Event → List UInt8
  | [] => []
  | .took _ b :: es => takenBytes es ++ [b]
  | _ :: es => takenBytes es

/-- The bytes put in are those taken out and then `pending`, which are in the buffer, in order. -/
structure Pending (b : PipeBuf) (put taken pending : List UInt8) : Prop where
  order : put = taken ++ pending
  count : pending.length = (b.nwrite-b.nread).toNat
  fits : pending.length ≤ PIPESIZE.toNat
  place : ∀ i (h : i < pending.length),
    pending.get ⟨i, h⟩ = b.data ((b.nread.toNat+i)%PIPESIZE.toNat)

namespace PipeBuf

theorem full_iff (b : PipeBuf) : b.full = true ↔ (b.nwrite-b.nread).toNat = PIPESIZE.toNat := by
  have h : PIPESIZE.toNat = 512 := rfl
  rw [full, beq_iff_eq, ← UInt32.toNat_inj, UInt32.toNat_add, UInt32.toNat_sub]
  have hw := b.nwrite.toNat_lt
  have hr := b.nread.toNat_lt
  omega

theorem empty_iff (b : PipeBuf) : b.empty = true ↔ (b.nwrite-b.nread).toNat = 0 := by
  rw [empty, beq_iff_eq, ← UInt32.toNat_inj, UInt32.toNat_sub]
  have hw := b.nwrite.toNat_lt
  have hr := b.nread.toNat_lt
  omega

theorem index (n : UInt32) : (n%PIPESIZE).toNat = n.toNat%PIPESIZE.toNat := UInt32.toNat_mod ..

end PipeBuf

namespace Pending

variable {b : PipeBuf} {put taken pending : List UInt8}

theorem push (h : Pending b put taken pending) (hroom : b.full = false) (ch : UInt8) :
    Pending (b.put ch) (put ++ [ch]) taken (pending ++ [ch]) := by
  have hne : (b.nwrite-b.nread).toNat ≠ PIPESIZE.toNat := fun he => by
    rw [b.full_iff.mpr he] at hroom
    cases hroom
  have hfits := h.fits
  have hcount := h.count
  have hsize : PIPESIZE.toNat = 512 := rfl
  have hr := b.nread.toNat_lt
  rw [UInt32.toNat_sub] at hne hcount
  have hnext : (b.nwrite+1-b.nread).toNat = (2^32-b.nread.toNat+b.nwrite.toNat)%2^32+1 := by
    rw [UInt32.toNat_sub, UInt32.toNat_add]
    have : (1 : UInt32).toNat = 1 := rfl
    omega
  refine ⟨?_, ?_, ?_, fun i hi => ?_⟩
  · rw [h.order, List.append_assoc]
  · rw [List.length_append, List.length_singleton, PipeBuf.put, hnext, hcount]
  · rw [List.length_append, List.length_singleton]
    omega
  · rw [List.length_append, List.length_singleton] at hi
    rw [PipeBuf.put]
    dsimp only
    rw [PipeBuf.index, List.get_eq_getElem]
    by_cases hlast : i = pending.length
    · -- The new byte is at the place where `nwrite` points.
      subst hlast
      have hplace : (b.nread.toNat+pending.length)%PIPESIZE.toNat = b.nwrite.toNat%PIPESIZE.toNat := by
        rw [hsize]
        omega
      rw [hplace, Function.update_self]
      exact List.getElem_concat_length rfl _
    · have hi : i < pending.length := by omega
      have hplace : (b.nread.toNat+i)%PIPESIZE.toNat ≠ b.nwrite.toNat%PIPESIZE.toNat := by
        rw [hsize]
        omega
      rw [Function.update_of_ne hplace, List.getElem_append_left hi]
      exact h.place i hi

theorem pop (h : Pending b put taken pending) (hne : b.empty = false) :
    ∃ rest, pending = b.next :: rest ∧ Pending b.took put (taken ++ [b.next]) rest := by
  have hpos : (b.nwrite-b.nread).toNat ≠ 0 := fun he => by
    rw [b.empty_iff.mpr he] at hne
    cases hne
  have hcount := h.count
  have hfits := h.fits
  have hsize : PIPESIZE.toNat = 512 := rfl
  have hr := b.nread.toNat_lt
  cases hp : pending with
  | nil =>
    rw [hp] at hcount
    exact absurd hcount.symm hpos
  | cons c rest =>
    subst hp
    have hc : c = b.next := by
      exact h.place 0 (by simp)
    subst hc
    rw [UInt32.toNat_sub] at hpos hcount
    rw [List.length_cons] at hcount hfits
    have hone : (1 : UInt32).toNat = 1 := rfl
    refine ⟨rest, rfl, ⟨?_, ?_, by omega, fun i hi => ?_⟩⟩
    · rw [h.order, List.append_assoc]
      rfl
    · rw [PipeBuf.took, UInt32.toNat_sub, UInt32.toNat_add]
      dsimp only
      omega
    · have hplace := h.place (i+1) (by simpa using hi)
      rw [PipeBuf.took, UInt32.toNat_add]
      rw [List.get_eq_getElem, List.getElem_cons_succ] at hplace
      rw [List.get_eq_getElem, hplace]
      dsimp only
      rw [hsize]
      congr 1
      omega

end Pending
end Xv6.Threads
