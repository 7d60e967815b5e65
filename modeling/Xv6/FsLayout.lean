import Xv6.DiskBlock
import Mathlib.Data.Nat.Bitwise

/-! The layout of the disk, kernel/fs.h: superblock, inodes, bitmap and directory entries in blocks. -/
namespace Xv6
open ByteFields

abbrev ROOTINO : ℕ := 1
abbrev FSMAGIC : ℕ := 0x10203040
abbrev NDIRECT : ℕ := 12
abbrev NINDIRECT : ℕ := BSIZE/4
abbrev MAXFILE : ℕ := NDIRECT+NINDIRECT
abbrev DINODESIZE : ℕ := 64
abbrev IPB : ℕ := BSIZE/DINODESIZE
abbrev BPB : ℕ := BSIZE*8
abbrev DIRSIZ : ℕ := 14
abbrev DIRENTSIZE : ℕ := 16
abbrev T_DIR : ℕ := 1
abbrev T_FILE : ℕ := 2
abbrev T_DEVICE : ℕ := 3

structure Superblock where
  magic : ℕ
  size : ℕ
  ninodes : ℕ
  logstart : ℕ
  inodestart : ℕ
  bmapstart : ℕ
  deriving DecidableEq, Repr

def getSuperblock (b : Block) : Superblock where
  magic := getLE b 0 4
  size := getLE b 4 4
  ninodes := getLE b 12 4
  logstart := getLE b 20 4
  inodestart := getLE b 24 4
  bmapstart := getLE b 28 4

namespace Superblock

def iblock (sb : Superblock) (i : ℕ) : ℕ := i/IPB+sb.inodestart

def bblock (sb : Superblock) (b : ℕ) : ℕ := b/BPB+sb.bmapstart

/-- The first block behind the bitmap, as mkfs lays it out. -/
def dataStart (sb : Superblock) : ℕ := sb.bmapstart+(sb.size/BPB+1)

/-- The parts of the disk are in the order that fs.h draws and do not overlap; the numbers fit
the types they are kept in. -/
structure Ok (sb : Superblock) : Prop where
  log : sb.logstart+LOGBLOCKS < sb.inodestart
  inodes : sb.ninodes ≤ (sb.bmapstart-sb.inodestart)*IPB
  order : sb.inodestart ≤ sb.bmapstart
  data : sb.dataStart ≤ sb.size
  size : sb.size < 2^31
  root : ROOTINO < sb.ninodes
  ushort : sb.ninodes ≤ 2^16

def IsData (sb : Superblock) (b : ℕ) : Prop := sb.dataStart ≤ b ∧ b < sb.size

instance (sb : Superblock) (b : ℕ) : Decidable (sb.IsData b) :=
  inferInstanceAs (Decidable (_ ∧ _))

end Superblock

/-- `struct dinode`, and the same fields of `struct inode`. The shorts are kept as numbers below
`2^16`. -/
@[ext] structure Dinode where
  type : ℕ
  major : ℕ
  minor : ℕ
  nlink : ℕ
  size : ℕ
  addrs : Fin (NDIRECT+1) → ℕ

def short (n : ℕ) : ℤ := if n < 2^15 then n else n-2^16

def getDinode (b : Block) (k : ℕ) : Dinode where
  type := getLE b (DINODESIZE*k) 2
  major := getLE b (DINODESIZE*k+2) 2
  minor := getLE b (DINODESIZE*k+4) 2
  nlink := getLE b (DINODESIZE*k+6) 2
  size := getLE b (DINODESIZE*k+8) 4
  addrs := fun j => getLE b (DINODESIZE*k+12+4*j.val) 4

/-- The copy of the addresses, of which `n` are left. -/
def setAddrs (b : Block) (off : ℕ) (addrs : ℕ → ℕ) : ℕ → Block
  | 0 => b
  | n+1 => setLE (setAddrs b off addrs n) (off+4*n) 4 (addrs n)

def setDinode (b : Block) (k : ℕ) (d : Dinode) : Block :=
  let b := setLE b (DINODESIZE*k) 2 d.type
  let b := setLE b (DINODESIZE*k+2) 2 d.major
  let b := setLE b (DINODESIZE*k+4) 2 d.minor
  let b := setLE b (DINODESIZE*k+6) 2 d.nlink
  let b := setLE b (DINODESIZE*k+8) 4 d.size
  setAddrs b (DINODESIZE*k+12) (fun j => if h : j < NDIRECT+1 then d.addrs ⟨j,h⟩ else 0) (NDIRECT+1)

/-- The fields fit their types. -/
structure Dinode.Fits (d : Dinode) : Prop where
  type : d.type < 2^16
  major : d.major < 2^16
  minor : d.minor < 2^16
  nlink : d.nlink < 2^16
  size : d.size < 2^32
  addrs : ∀ j, d.addrs j < 2^32

/-- A dinode right after `memset`. -/
def Dinode.zero : Dinode := ⟨0, 0, 0, 0, 0, fun _ => 0⟩

variable {addrs : ℕ → ℕ}

section Dinodes
variable (b : Block) (k : ℕ) (d : Dinode)

theorem getDinode_fits : (getDinode b k).Fits :=
  ⟨getLE_lt _ _ 2, getLE_lt _ _ 2, getLE_lt _ _ 2, getLE_lt _ _ 2, getLE_lt _ _ 4,
    fun _ => getLE_lt _ _ 4⟩

theorem getLE_setAddrs_outside {off i w : ℕ} (n : ℕ)
    (h : i+w ≤ off ∨ off+4*n ≤ i) : getLE (setAddrs b off addrs n) i w = getLE b i w := by
  induction n with
  | zero => rfl
  | succ n ih =>
    rw [setAddrs, getLE_setLE_outside (by omega), ih (by omega)]

theorem getLE_setAddrs_inside {off j : ℕ} (n : ℕ) (hoff : off+4*n ≤ BSIZE)
    (hj : j < n) (hlt : addrs j < 2^32) :
    getLE (setAddrs b off addrs n) (off+4*j) 4 = addrs j := by
  induction n with
  | zero => exact absurd hj (Nat.not_lt_zero j)
  | succ n ih =>
    rw [setAddrs]
    by_cases hjn : j = n
    · rw [hjn] at hlt ⊢
      rw [getLE_setLE_same (by omega)]
      exact Nat.mod_eq_of_lt (by norm_num; omega)
    · rw [getLE_setLE_outside (by omega), ih (by omega) (by omega)]

theorem getDinode_setDinode_same (hk : k < IPB) (hd : d.Fits) :
    getDinode (setDinode b k d) k = d := by
  have hoff : DINODESIZE*k+DINODESIZE ≤ BSIZE := by
    have : k < 16 := hk
    rw [DINODESIZE, BSIZE]
    omega
  have hds : DINODESIZE = 64 := rfl
  have htype := hd.type
  have hmajor := hd.major
  have hminor := hd.minor
  have hnlink := hd.nlink
  have hsize := hd.size
  -- each field is read back from the write that set it, past the later ones
  ext j
  · simp only [getDinode, setDinode]
    rw [getLE_setAddrs_outside _ _ (by omega), getLE_setLE_outside (by omega),
      getLE_setLE_outside (by omega), getLE_setLE_outside (by omega),
      getLE_setLE_outside (by omega), getLE_setLE_same (by omega)]
    exact Nat.mod_eq_of_lt (by norm_num; omega)
  · simp only [getDinode, setDinode]
    rw [getLE_setAddrs_outside _ _ (by omega), getLE_setLE_outside (by omega),
      getLE_setLE_outside (by omega), getLE_setLE_outside (by omega),
      getLE_setLE_same (by omega)]
    exact Nat.mod_eq_of_lt (by norm_num; omega)
  · simp only [getDinode, setDinode]
    rw [getLE_setAddrs_outside _ _ (by omega), getLE_setLE_outside (by omega),
      getLE_setLE_outside (by omega), getLE_setLE_same (by omega)]
    exact Nat.mod_eq_of_lt (by norm_num; omega)
  · simp only [getDinode, setDinode]
    rw [getLE_setAddrs_outside _ _ (by omega), getLE_setLE_outside (by omega),
      getLE_setLE_same (by omega)]
    exact Nat.mod_eq_of_lt (by norm_num; omega)
  · simp only [getDinode, setDinode]
    rw [getLE_setAddrs_outside _ _ (by omega), getLE_setLE_same (by omega)]
    exact Nat.mod_eq_of_lt (by norm_num; omega)
  · simp only [getDinode, setDinode]
    rw [getLE_setAddrs_inside _ _ (by omega) j.isLt]
    · rw [dif_pos j.isLt]
    · rw [dif_pos j.isLt]
      exact hd.addrs _

theorem getDinode_setDinode_other {k' : ℕ} (h : k' ≠ k) :
    getDinode (setDinode b k d) k' = getDinode b k' := by
  have hoff : DINODESIZE*k'+DINODESIZE ≤ DINODESIZE*k ∨ DINODESIZE*k+DINODESIZE ≤ DINODESIZE*k' := by
    rw [DINODESIZE]
    omega
  have hds : DINODESIZE = 64 := rfl
  have hdirect : NDIRECT = 12 := rfl
  have hread : ∀ i w, DINODESIZE*k' ≤ i → i+w ≤ DINODESIZE*k'+DINODESIZE →
      getLE (setDinode b k d) i w = getLE b i w := by
    intro i w hlo hhi
    simp only [setDinode]
    rw [getLE_setAddrs_outside _ _ (by omega), getLE_setLE_outside (by omega),
      getLE_setLE_outside (by omega), getLE_setLE_outside (by omega),
      getLE_setLE_outside (by omega), getLE_setLE_outside (by omega)]
  ext j
  · exact hread _ _ (by omega) (by omega)
  · exact hread _ _ (by omega) (by omega)
  · exact hread _ _ (by omega) (by omega)
  · exact hread _ _ (by omega) (by omega)
  · exact hread _ _ (by omega) (by omega)
  · exact hread _ _ (by omega) (by omega)

end Dinodes

def bitMask (bi : ℕ) : UInt8 := UInt8.ofNat (2^(bi % 8))

/-- The bit of the bitmap is set: the block is in use. -/
def getBit (b : Block) (bi : ℕ) : Bool := get8 b (bi/8) &&& bitMask bi != 0

def setBit (b : Block) (bi : ℕ) : Block := splice b (bi/8) 1 fun _ => get8 b (bi/8) ||| bitMask bi

section Bits
variable (b : Block) (bi bj : ℕ)

theorem bitMask_toNat : (bitMask bi).toNat = 2^(bi % 8) := by
  have hlt : 2^(bi % 8) < 2^8 := Nat.pow_lt_pow_right (by decide) (Nat.mod_lt _ (by decide))
  rw [bitMask, UInt8.toNat_ofNat', Nat.mod_eq_of_lt hlt]

theorem and_bitMask (x : UInt8) : (x &&& bitMask bi != 0) = x.toNat.testBit (bi % 8) := by
  have hand : (x &&& bitMask bi).toNat = (x.toNat.testBit (bi % 8)).toNat*2^(bi % 8) := by
    rw [UInt8.toNat_and, bitMask_toNat, Nat.and_two_pow]
  have hpos : 0 < 2^(bi % 8) := Nat.two_pow_pos _
  cases htest : x.toNat.testBit (bi % 8) with
  | false =>
    rw [htest] at hand
    have hzero : x &&& bitMask bi = 0 := by
      apply UInt8.toNat_inj.mp
      rw [hand]
      simp
    simp [hzero]
  | true =>
    rw [htest] at hand
    have hne : x &&& bitMask bi ≠ 0 := by
      intro hzero
      rw [hzero] at hand
      simp at hand
      omega
    simp [hne]

theorem getBit_eq : getBit b bi = (get8 b (bi/8)).toNat.testBit (bi % 8) := and_bitMask bi _

theorem getBit_setBit (hbi : bi < BPB) :
    getBit (setBit b bi) bj = (getBit b bj || decide (bj = bi)) := by
  rw [BPB, BSIZE] at hbi
  rw [getBit_eq, getBit_eq]
  by_cases hbyte : bj/8 = bi/8
  · rw [setBit, hbyte, get8_splice_inside _ _ _ _ _ (by rw [BSIZE]; omega) le_rfl (by omega),
      UInt8.toNat_or, Nat.testBit_or, bitMask_toNat, Nat.testBit_two_pow]
    congr 1
    exact decide_eq_decide.mpr (by omega)
  · rw [setBit, get8_splice_outside _ _ _ _ _ (by omega), decide_eq_false (by omega), Bool.or_false]

end Bits
end Xv6
