import Xv6.FsStorage

/-! Which blocks belong to which inodes. A block is named by the slots of an inode: the addresses in
the inode and the entries of its indirect block. `I` are the inodes, which differ from those on the
disk `B` while one of them is being changed. -/
namespace Xv6
open ByteFields Function

def dinodeOf (sb : Superblock) (B : ℕ → Block) (inum : ℕ) : Dinode :=
  getDinode (B (sb.iblock inum)) (inum % IPB)

def flight (sb : Superblock) (B : ℕ → Block) (inum : ℕ) (d : Dinode) : ℕ → Dinode :=
  update (dinodeOf sb B) inum d

theorem getDinode_zeroBlock (k : ℕ) : getDinode zeroBlock k = Dinode.zero := by
  ext j <;> exact getLE_zero _ _

inductive Slot where
  | addr (k : Fin (NDIRECT+1))
  | entry (j : Fin NINDIRECT)
  deriving DecidableEq

def slotAddr (B : ℕ → Block) (d : Dinode) : Slot → ℕ
  | .addr k => d.addrs k
  | .entry j => if d.addrs indirect = 0 then 0 else getLE (B (d.addrs indirect)) (4*j.val) 4

/-- The slot that `bmap` looks at for block `bn` of a file. -/
def bnSlot (bn : ℕ) : Slot :=
  if h : bn < NDIRECT then .addr ⟨bn, Nat.lt_succ_of_lt h⟩
  else .entry ⟨(bn-NDIRECT) % NINDIRECT, Nat.mod_lt _ (by decide)⟩

theorem bnSlot_direct {bn : ℕ} (h : bn < NDIRECT) : bnSlot bn = .addr ⟨bn, Nat.lt_succ_of_lt h⟩ :=
  dif_pos h

theorem bnSlot_entry {bn : ℕ} (h : ¬bn < NDIRECT) (hlt : bn-NDIRECT < NINDIRECT) :
    bnSlot bn = .entry ⟨bn-NDIRECT, hlt⟩ := by
  rw [bnSlot, dif_neg h]
  congr 2
  exact Nat.mod_eq_of_lt hlt

theorem bnSlot_ne_indirect (bn : ℕ) : bnSlot bn ≠ .addr indirect := by
  rw [bnSlot]
  split_ifs with h
  · intro he
    have hlast := congrArg Fin.val (Slot.addr.inj he)
    exact Nat.ne_of_lt h hlast
  · exact Slot.noConfusion

theorem Superblock.bmap_lt (sb : Superblock) : sb.bmapstart < sb.dataStart := by
  exact Nat.lt_add_of_pos_right (Nat.succ_pos _)

theorem Superblock.IsData.pos {sb : Superblock} {b : ℕ} (hb : sb.IsData b) : b ≠ 0 := by
  have := sb.bmap_lt
  have := hb.1
  omega

variable {k : Fin (NDIRECT+1)}

section Blocks
variable {sb : Superblock} {B : ℕ → Block} {inum n b : ℕ} {d : Dinode} {v : Block} {s : Slot}

theorem flight_self : flight sb B inum d inum = d := update_self ..

theorem flight_other (hn : n ≠ inum) : flight sb B inum d n = dinodeOf sb B n :=
  update_of_ne hn ..

theorem flight_rest : flight sb B inum (dinodeOf sb B inum) = dinodeOf sb B :=
  update_eq_self ..

theorem slotAddr_update (hb : d.addrs indirect ≠ 0 → b ≠ d.addrs indirect) :
    slotAddr (update B b v) d s = slotAddr B d s := by
  cases s with
  | addr k => rfl
  | entry j =>
    simp only [slotAddr]
    split_ifs with hz
    · rfl
    · rw [update_of_ne (hb hz).symm]

theorem slotAddr_congr {d' : Dinode} (h : d'.addrs = d.addrs) : slotAddr B d' s = slotAddr B d s := by
  cases s with
  | addr | entry => simp only [slotAddr, h]

theorem slotAddr_setAddr_direct (hk : k ≠ indirect) (a : ℕ) :
    slotAddr B (d.setAddr k a) s = if s = .addr k then a else slotAddr B d s := by
  cases s with
  | addr j =>
    simp only [slotAddr, Dinode.setAddr, Slot.addr.injEq, update_apply]
  | entry j =>
    simp only [slotAddr, Dinode.setAddr, update_of_ne hk.symm, reduceCtorEq, ↓reduceIte]

theorem slotAddr_setAddr_indirect {a : ℕ} (hz : d.addrs indirect = 0) (ha : B a = zeroBlock) :
    slotAddr B (d.setAddr indirect a) s = if s = .addr indirect then a else slotAddr B d s := by
  cases s with
  | addr j =>
    simp only [slotAddr, Dinode.setAddr, Slot.addr.injEq, update_apply]
  | entry j =>
    simp only [slotAddr, Dinode.setAddr, update_self, reduceCtorEq, ↓reduceIte, hz, ha,
      ite_eq_left_iff]
    intro _
    exact getLE_zero _ _

theorem slotAddr_setEntry {j a : ℕ} (hj : j < NINDIRECT) (hz : d.addrs indirect ≠ 0)
    (ha : a < 2^32) :
    slotAddr (update B (d.addrs indirect) (setLE (B (d.addrs indirect)) (4*j) 4 a)) d s =
      if s = .entry ⟨j, hj⟩ then a else slotAddr B d s := by
  cases s with
  | addr k => simp only [slotAddr, reduceCtorEq, ↓reduceIte]
  | entry l =>
    have hmax : NINDIRECT = 256 := rfl
    simp only [slotAddr, hz, ↓reduceIte, update_self, Slot.entry.injEq]
    by_cases hlj : l.val = j
    · rw [if_pos (Fin.ext hlj), hlj, getLE_setLE_same (by rw [BSIZE]; omega)]
      exact Nat.mod_eq_of_lt ha
    · rw [if_neg fun he => hlj (congrArg Fin.val he), getLE_setLE_outside (by omega)]

theorem dinodeOf_update (hb : b ≠ sb.iblock n) :
    dinodeOf sb (update B b v) n = dinodeOf sb B n := by
  rw [dinodeOf, dinodeOf, update_of_ne hb.symm]

theorem flight_update (hb : b ≠ sb.iblock n) :
    flight sb (update B b v) inum d n = flight sb B inum d n := by
  by_cases hn : n = inum
  · rw [hn, flight_self, flight_self]
  · rw [flight_other hn, flight_other hn, dinodeOf_update hb]

/-- The disk after `iupdate`. -/
def iupdated (sb : Superblock) (B : ℕ → Block) (inum : ℕ) (d : Dinode) : ℕ → Block :=
  update B (sb.iblock inum) (setDinode (B (sb.iblock inum)) (inum % IPB) d)

/-- After `iupdate` the inode on the disk is the one in memory, and the others are as before. -/
theorem dinodeOf_iupdated (hd : d.Fits) (n : ℕ) :
    dinodeOf sb (iupdated sb B inum d) n = flight sb B inum d n := by
  rw [iupdated]
  by_cases hn : n = inum
  · rw [hn, flight_self, dinodeOf, update_self]
    exact getDinode_setDinode_same _ _ _ (Nat.mod_lt _ (by decide)) hd
  rw [flight_other hn]
  by_cases hb : sb.iblock n = sb.iblock inum
  · -- another inode of the same block
    have hmod : n % IPB ≠ inum % IPB := by
      intro hm
      have hn' := Nat.div_add_mod n IPB
      have hi' := Nat.div_add_mod inum IPB
      rw [hm, Nat.add_right_cancel hb] at hn'
      exact hn (hn'.symm.trans hi')
    rw [dinodeOf, dinodeOf, hb, update_self]
    exact getDinode_setDinode_other _ _ _ hmod
  · exact dinodeOf_update (Ne.symm hb)

end Blocks

/-- The inodes fit on the disk, and their slots name blocks of the data area. -/
structure Tame (sb : Superblock) (B : ℕ → Block) (I : ℕ → Dinode) : Prop where
  fits : ∀ n < sb.ninodes, (I n).Fits
  ranged : ∀ n < sb.ninodes, (I n).type ≠ 0 → ∀ s, slotAddr B (I n) s ≠ 0 →
    sb.IsData (slotAddr B (I n) s)

/-- Inodes that are in use now were so before, and their slots have not changed. -/
def SameSlots (sb : Superblock) (B : ℕ → Block) (I : ℕ → Dinode) (B' : ℕ → Block)
    (I' : ℕ → Dinode) : Prop :=
  ∀ n < sb.ninodes, (I' n).type ≠ 0 → (I n).type ≠ 0 ∧ ∀ s, slotAddr B' (I' n) s = slotAddr B (I n) s

section Changes
variable {sb : Superblock} {B B' : ℕ → Block} {I I' : ℕ → Dinode} {inum b a : ℕ} {d d' : Dinode}
  {v : Block}

theorem Tame.shrink (h : Tame sb B I) (hf : ∀ n < sb.ninodes, (I' n).Fits)
    (hs : ∀ n < sb.ninodes, (I' n).type ≠ 0 → (I n).type ≠ 0 ∧ ∀ s,
      slotAddr B' (I' n) s = 0 ∨ slotAddr B' (I' n) s = slotAddr B (I n) s) : Tame sb B' I' := by
  refine ⟨hf, fun n hn ht s hz => ?_⟩
  obtain ⟨ht', hs'⟩ := hs n hn ht
  have he := (hs' s).resolve_left hz
  rw [he] at hz ⊢
  exact h.ranged n hn ht' s hz

theorem Tame.congr (h : Tame sb B I) (hs : SameSlots sb B I B' I')
    (hf : ∀ n < sb.ninodes, (I' n).Fits) : Tame sb B' I' :=
  h.shrink hf fun n hn ht => ⟨(hs n hn ht).1, fun s => .inr ((hs n hn ht).2 s)⟩

theorem Dinode.Fits.setAddr (h : d.Fits) (ha : a < 2^32) : (d.setAddr k a).Fits := by
  refine ⟨h.type, h.major, h.minor, h.nlink, h.size, fun j => ?_⟩
  simp only [Dinode.setAddr, update_apply]
  split_ifs
  · exact ha
  · exact h.addrs j

end Changes

def fileByte (B : ℕ → Block) (d : Dinode) (off : ℕ) : UInt8 :=
  get8 (B (slotAddr B d (bnSlot (off/BSIZE)))) (off % BSIZE)

theorem block_start_lt {off size : ℕ} (h : off < size) : off/BSIZE*BSIZE < size :=
  Nat.lt_of_le_of_lt (Nat.div_mul_le_self off BSIZE) h

theorem block_lt_maxfile {off : ℕ} (h : off < MAXFILE*BSIZE) : off/BSIZE < MAXFILE :=
  Nat.div_lt_of_lt_mul (by rwa [Nat.mul_comm])

/-- A piece of a block, which is what one turn of the loops in `readi` and `writei` deals with. -/
theorem same_block (off i : ℕ) (h : off % BSIZE+i < BSIZE) :
    (off+i)/BSIZE = off/BSIZE ∧ (off+i) % BSIZE = off % BSIZE+i := by
  rw [BSIZE] at h ⊢
  omega

end Xv6
