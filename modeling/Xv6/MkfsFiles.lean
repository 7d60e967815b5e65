import Xv6.Mkfs

/-! mkfs takes blocks one after the other. While the inodes fit into the inode blocks, the blocks
below `freeblock` are the metadata and those of the inodes, each with one owner. -/
namespace Xv6.Mkfs
open ByteFields StateOutcome Function

/-- The superblock, with as many inodes as the inode blocks have room for. -/
def cap : Superblock := { sb with ninodes := ninodeblocks*IPB }

theorem cap_ninodes : cap.ninodes = 208 := rfl

theorem iblock_eq (n : ℕ) : cap.iblock n = n/16+33 := rfl

theorem sb_iblock (n : ℕ) : sb.iblock n = cap.iblock n := rfl

variable {b n j off k : ℕ} {E : Died → Image → Prop} {Q : Block → Image → Prop}

theorem isData_iff : cap.IsData b ↔ 47 ≤ b ∧ b < 2000 := Iff.rfl

theorem data_ne_iblock : ∀ b, cap.IsData b → ∀ n < cap.ninodes, b ≠ cap.iblock n := by
  intro b hb n hn
  rw [cap_ninodes] at hn
  rw [isData_iff] at hb
  rw [iblock_eq]
  omega

theorem iblock_lt (hn : n < cap.ninodes) : cap.iblock n < FSSIZE := by
  rw [cap_ninodes] at hn
  rw [iblock_eq, FSSIZE]
  omega

/-! ## Sectors -/

theorem sector_eq (hb : b ≤ FSSIZE) : sector b = b := by
  rw [FSSIZE] at hb
  rw [sector, BSIZE]
  omega

section Sectors
variable {s : Image} {b : ℕ} (hs : s.length = FSSIZE)
include hs

theorem post_rsect (hb : b < FSSIZE) :
    post (rsect b) s Q E ↔ Q (s.block b) s := by
  simp only [rsect, post_bind, post_get, sector_eq hb.le, hs, if_pos hb, post_pure]

theorem post_rsect_end :
    post (rsect FSSIZE) s Q E ↔ E (.die "read") s := by
  simp only [rsect, post_bind, post_get, sector_eq le_rfl, hs, if_neg (Nat.lt_irrefl _), post_throw]

theorem post_wsect (hb : b < FSSIZE) {v : Block} {Q : Unit → Image → Prop} :
    post (wsect b v) s Q E ↔ Q () { s with block := update s.block b v } := by
  have hlen : max s.length (b+1) = s.length := by omega
  simp only [wsect, post_modify, sector_eq hb.le, hlen]

theorem post_rinode (hn : n < cap.ninodes) {Q : Dinode → Image → Prop}
    : post (rinode n) s Q E ↔ Q (dinodeOf cap s.block n) s := by
  simp only [rinode, post_bind, post_pure]
  exact post_rsect hs (iblock_lt hn)

theorem post_winode (hn : n < cap.ninodes) {d : Dinode} {Q : Unit → Image → Prop} :
    post (winode n d) s Q E ↔
      Q () { s with block := iupdated cap s.block n d, written := n :: s.written } := by
  simp only [winode, sb_iblock, post_bind, post_modify]
  rw [post_rsect hs (iblock_lt hn), post_wsect hs (iblock_lt hn)]
  rfl

end Sectors

theorem post_nextBlock {s : Image} (hs : s.freeblock ≤ FSSIZE) {Q : ℕ → Image → Prop} :
    post nextBlock s Q E ↔ Q s.freeblock { s with freeblock := s.freeblock+1 } := by
  have hlt : (s.freeblock+1) % 2^32 = s.freeblock+1 := by
    rw [FSSIZE] at hs
    omega
  simp only [nextBlock, post_bind, post_get, post_modify, post_pure, hlt]

/-! ## Taking blocks -/

/-- The blocks below `freeblock` are those of the inodes `I`, and the others are zero. -/
structure Disk (I : ℕ → Dinode) (s : Image) : Prop where
  owned : Owned cap (· < s.freeblock) s.block I
  length : s.length = FSSIZE
  first : nmeta ≤ s.freeblock
  last : s.freeblock ≤ FSSIZE
  zero : ∀ b, s.freeblock ≤ b → b < FSSIZE → s.block b = zeroBlock
  covered : ∀ b, nmeta ≤ b → b < s.freeblock → ∃ n < cap.ninodes, (I n).type ≠ 0 ∧
    ∃ x, slotAddr s.block (I n) x = b

/-- What `iappend` does not change before it writes the inode. -/
structure Same (s s' : Image) : Prop where
  freeinode : s'.freeinode = s.freeinode
  written : s'.written = s.written
  super : s'.block 1 = s.block 1

/-- Inode `inum`, which is in memory as `d`, has got `k` blocks. -/
structure Took (inum k : ℕ) (s : Image) (d : Dinode) (s' : Image) (d' : Dinode) : Prop where
  gained : Gained cap inum s.block d (· < s'.freeblock) s'.block d'
  disk : Disk (flight cap s'.block inum d') s'
  free : s'.freeblock = s.freeblock+k
  same : Same s s'

section Taking
variable {inum k : ℕ} {s s' s'' : Image} {d d' d'' : Dinode}

theorem Took.trans {k' : ℕ} (h : Took inum k s d s' d') (h' : Took inum k' s' d' s'' d'') :
    Took inum (k+k') s d s'' d'' := by
  refine ⟨h.gained.trans h'.gained, h'.disk, by rw [h'.free, h.free, Nat.add_assoc], ?_, ?_, ?_⟩
  · rw [h'.same.freeinode, h.same.freeinode]
  · rw [h'.same.written, h.same.written]
  · rw [h'.same.super, h.same.super]

theorem Took.none (h : Disk (flight cap s.block inum d) s) : Took inum 0 s d s d :=
  ⟨.refl h.owned, h, rfl, rfl, rfl, rfl⟩

theorem taken (h : Disk (flight cap s.block inum d) s) (hlt : s.freeblock < FSSIZE) :
    Taken cap (· < s.freeblock) s.block s.freeblock (· < s.freeblock+1) s.block := by
  refine ⟨⟨h.first, hlt⟩, Nat.lt_irrefl _, h.zero _ le_rfl hlt, fun _ _ _ => rfl, fun _ _ => rfl, ?_⟩
  rintro b _ (hb | hb) <;> omega

variable (hin : inum < cap.ninodes) (h : Disk (flight cap s.block inum d) s) (ht : d.type ≠ 0)
include hin h ht

theorem Took.of_slot (hlt : s.freeblock < FSSIZE) (hfree : s'.freeblock = s.freeblock+1)
    (hg : Gained cap inum s.block d (· < s.freeblock+1) s'.block d') {y : Slot}
    (hy : slotAddr s.block d y = 0)
    (hslots : ∀ x, slotAddr s'.block d' x = if x = y then s.freeblock else slotAddr s.block d x)
    (hzero : ∀ b, s.freeblock < b → b < FSSIZE → s'.block b = s.block b)
    (hlen : s'.length = s.length) (hsame : Same s s') : Took inum 1 s d s' d' := by
  have howned : Owned cap (· < s'.freeblock) s'.block (flight cap s'.block inum d') := by
    rw [hfree]
    exact hg.owned
  refine ⟨by rw [hfree]; exact hg, ⟨howned, hlen.trans h.length, ?_, ?_, fun b hb hb' => ?_,
    fun b hb hb' => ?_⟩, hfree, hsame⟩
  · have := h.first
    omega
  · omega
  · rw [hzero b (by omega) hb']
    exact h.zero b (by omega) hb'
  · by_cases hnew : b = s.freeblock
    · refine ⟨inum, hin, ?_, y, ?_⟩
      · rw [flight_self, hg.fields]
        exact ht
      · rw [flight_self, hslots, if_pos rfl, hnew]
    · obtain ⟨n, hn, htn, x, hx⟩ := h.covered b hb (by omega)
      have hpos : 0 < nmeta := by decide
      by_cases hne : n = inum
      · subst hne
        rw [flight_self] at hx
        refine ⟨n, hn, by rwa [flight_self, hg.fields], x, ?_⟩
        rw [flight_self, hslots, if_neg, hx]
        rintro rfl
        omega
      · rw [flight_other hne] at htn hx
        refine ⟨n, hn, ?_, x, ?_⟩
        · rwa [flight_other hne, hg.disk n hn]
        · rw [flight_other hne, hg.disk n hn, hg.other_slot hn hne htn, hx]

theorem took_addr {k : Fin (NDIRECT+1)} (hk : d.addrs k = 0) (hlt : s.freeblock < FSSIZE) :
    Took inum 1 s d { s with freeblock := s.freeblock+1 } (d.setAddr k s.freeblock) ∧
    ∀ x, slotAddr s.block (d.setAddr k s.freeblock) x =
      if x = .addr k then s.freeblock else slotAddr s.block d x := by
  obtain ⟨hg, hslots⟩ := Gained.alloc_addr hin h.owned ht (taken h hlt) (by decide) hk
  exact ⟨.of_slot hin h ht hlt rfl hg (y := .addr k) hk hslots (fun _ _ _ => rfl) rfl ⟨rfl, rfl, rfl⟩,
    hslots⟩

theorem took_entry (hind : d.addrs indirect ≠ 0) (hj : j < NINDIRECT)
    (hz : slotAddr s.block d (.entry ⟨j, hj⟩) = 0) (hlt : s.freeblock < FSSIZE) :
    Took inum 1 s d { s with
      freeblock := s.freeblock+1
      block := update s.block (d.addrs indirect)
        (setLE (s.block (d.addrs indirect)) (4*j) 4 s.freeblock) } d ∧
    ∀ x, slotAddr (update s.block (d.addrs indirect)
        (setLE (s.block (d.addrs indirect)) (4*j) 4 s.freeblock)) d x =
      if x = .entry ⟨j, hj⟩ then s.freeblock else slotAddr s.block d x := by
  obtain ⟨hg, hslots⟩ := Gained.alloc_entry hin h.owned ht (taken h hlt) (by decide)
    data_ne_iblock hind hj hz
  have hused := h.owned.slot_used hin ht (s := .addr indirect) hind
  change cap.IsData (d.addrs indirect) ∧ d.addrs indirect < s.freeblock at hused
  rw [isData_iff] at hused
  refine ⟨.of_slot hin h ht hlt rfl hg (y := .entry ⟨j, hj⟩) hz hslots (fun b hb _ => ?_) rfl
    ⟨rfl, rfl, ?_⟩, hslots⟩
  · exact update_of_ne (by omega) ..
  · exact update_of_ne (by omega) ..

end Taking

/-! ## The blocks that a file needs -/

/-- The number of blocks of a file of `size` bytes, with its indirect block. -/
def blocksFor (size : ℕ) : ℕ := (size+BSIZE-1)/BSIZE+if NDIRECT*BSIZE < size then 1 else 0

section Arithmetic
variable {off : ℕ}

theorem new_block (h : off % BSIZE = 0) (bn : ℕ) :
    bn*BSIZE < off+1 ↔ bn = off/BSIZE ∨ bn*BSIZE < off := by
  rw [BSIZE] at h ⊢
  omega

theorem new_block_end (h : off % BSIZE = 0) : ¬off/BSIZE*BSIZE < off := by
  rw [BSIZE] at h ⊢
  omega

theorem old_block (h : off % BSIZE ≠ 0) (bn : ℕ) : bn*BSIZE < off ↔ bn*BSIZE < off+1 := by
  rw [BSIZE] at h ⊢
  omega

theorem old_block_end (h : off % BSIZE ≠ 0) : off/BSIZE*BSIZE < off := by
  rw [BSIZE] at h ⊢
  omega

theorem blocksFor_old (h : off % BSIZE ≠ 0) : 0+blocksFor off = blocksFor (off+1) := by
  simp only [blocksFor, BSIZE, NDIRECT] at h ⊢
  split_ifs <;> omega

/-- The first block that needs an entry of the indirect block needs that block too. -/
theorem blocksFor_new (h : off % BSIZE = 0) :
    (if off/BSIZE = NDIRECT then 2 else 1)+blocksFor off = blocksFor (off+1) := by
  simp only [blocksFor, BSIZE, NDIRECT] at h ⊢
  split_ifs <;> omega

theorem behind_direct : NDIRECT*BSIZE < off+1 ↔ ¬off/BSIZE < NDIRECT := by
  rw [BSIZE]
  omega

theorem first_behind_direct (h : off % BSIZE = 0) (hd : ¬off/BSIZE < NDIRECT) :
    off/BSIZE = NDIRECT ↔ ¬NDIRECT*BSIZE < off := by
  rw [BSIZE] at *
  omega

theorem entry_lt (hmax : off/BSIZE < MAXFILE) (hd : ¬off/BSIZE < NDIRECT) :
    off/BSIZE-NDIRECT < NINDIRECT := by
  rw [MAXFILE] at hmax
  omega

end Arithmetic

/-- The inode has the blocks that a file of `size` bytes needs and no others. -/
structure Exact (B : ℕ → Block) (d : Dinode) (size : ℕ) : Prop where
  block : ∀ bn < MAXFILE, slotAddr B d (bnSlot bn) ≠ 0 ↔ bn*BSIZE < size
  indirect : d.addrs indirect ≠ 0 ↔ NDIRECT*BSIZE < size

theorem Exact.congr {B : ℕ → Block} {d : Dinode} {size size' : ℕ} (h : Exact B d size)
    (hs : ∀ bn, bn*BSIZE < size ↔ bn*BSIZE < size') : Exact B d size' :=
  ⟨fun bn hbn => (h.block bn hbn).trans (hs bn), h.indirect.trans (hs NDIRECT)⟩

def Over (s : Image) (off : ℕ) : Prop := FSSIZE+blocksFor off < s.freeblock+blocksFor (off+1)

section Blocks
variable {inum : ℕ} {s : Image} {d : Dinode}

theorem post_addrBlock (hs : s.freeblock ≤ FSSIZE) {k : Fin (NDIRECT+1)} {Q : Dinode → Image → Prop}
    : post (addrBlock d k) s Q E ↔
      if d.addrs k = 0 then Q (d.setAddr k s.freeblock) { s with freeblock := s.freeblock+1 }
      else Q d s := by
  unfold addrBlock
  split_ifs
  · rw [post_bind, post_nextBlock hs]
    rfl
  · rfl

variable (hin : inum < cap.ninodes) (h : Disk (flight cap s.block inum d) s) (ht : d.type ≠ 0)
include hin h ht

/-- An empty entry of the indirect block is filled, unless the disk is full. -/
theorem entryBlock_fills (hind : d.addrs indirect ≠ 0) (hj : j < NINDIRECT)
    (hz : slotAddr s.block d (.entry ⟨j, hj⟩) = 0) :
    post (entryBlock (d.addrs indirect) j) s (fun x s' => x = s.freeblock ∧ s'.length = FSSIZE ∧
      (s.freeblock < FSSIZE → Took inum 1 s d s' d ∧ ∀ y, slotAddr s'.block d y =
        if y = .entry ⟨j, hj⟩ then s.freeblock else slotAddr s.block d y)) never := by
  have hdata := (h.owned.slot_used hin ht (s := .addr indirect) hind).1
  have hlt : d.addrs indirect < FSSIZE := hdata.2
  have hempty : getLE (s.block (d.addrs indirect)) (4*j) 4 = 0 := by
    rw [slotAddr, if_neg hind] at hz
    exact hz
  simp only [entryBlock, post_bind]
  rw [post_rsect h.length hlt, if_pos hempty, post_bind, post_nextBlock h.last, post_bind,
    post_wsect (by exact h.length) hlt, post_pure]
  exact ⟨rfl, h.length, took_entry hin h ht hind hj hz⟩

theorem entryBlock_reads (hind : d.addrs indirect ≠ 0) (hj : j < NINDIRECT)
    (hz : slotAddr s.block d (.entry ⟨j, hj⟩) ≠ 0) {Q : ℕ → Image → Prop}
    (hQ : Q (slotAddr s.block d (.entry ⟨j, hj⟩)) s) :
    post (entryBlock (d.addrs indirect) j) s Q E := by
  have hdata := (h.owned.slot_used hin ht (s := .addr indirect) hind).1
  have hlt : d.addrs indirect < FSSIZE := hdata.2
  have hentry : slotAddr s.block d (.entry ⟨j, hj⟩) =
      getLE (s.block (d.addrs indirect)) (4*j) 4 := by
    rw [slotAddr, if_neg hind]
  rw [hentry] at hz hQ
  simp only [entryBlock, post_bind]
  rwa [post_rsect h.length hlt, if_neg hz]

/-- The block at offset `off` of a file that ends there or behind: it is there, or it is the next one,
which may be behind the end of the disk. -/
theorem fileBlock_finds (hmax : off/BSIZE < MAXFILE) (hx : Exact s.block d off) :
    post (fileBlock d (off/BSIZE)) s (fun r s' => (r.1 = FSSIZE ∧ s'.length = FSSIZE ∧ Over s off) ∨
      ∃ k, Took inum k s d s' r.2 ∧ k+blocksFor off = blocksFor (off+1) ∧
        r.1 = slotAddr s'.block r.2 (bnSlot (off/BSIZE)) ∧ r.1 ≠ 0 ∧ Exact s'.block r.2 (off+1))
      (fun _ _ => Over s off) := by
  have hlast := h.last
  have hfirst : 47 ≤ s.freeblock := h.first
  unfold fileBlock
  by_cases hmod : off % BSIZE = 0
  · -- the block is a new one
    have hneed := blocksFor_new hmod
    have hzero : slotAddr s.block d (bnSlot (off/BSIZE)) = 0 := by
      by_contra hne
      exact new_block_end hmod ((hx.block _ hmax).mp hne)
    -- the slot is filled, and the others are what they were
    have hfilled {B : ℕ → Block} {d' : Dinode} {a : ℕ} (ha : a ≠ 0)
        (hslots : ∀ y, y ≠ .addr indirect → slotAddr B d' y =
          if y = bnSlot (off/BSIZE) then a else slotAddr s.block d y) (bn : ℕ) (hbn : bn < MAXFILE) :
        slotAddr B d' (bnSlot bn) ≠ 0 ↔ bn*BSIZE < off+1 := by
      rw [new_block hmod, ← hx.block bn hbn, hslots _ (bnSlot_ne_indirect bn)]
      split_ifs with hslot
      · exact iff_of_true ha (.inl (bnSlot_inj hbn hmax hslot))
      · refine ⟨.inr, fun hor => hor.resolve_left ?_⟩
        rintro rfl
        exact hslot rfl
    split_ifs with hdirect
    · rw [if_neg (Nat.ne_of_lt hdirect)] at hneed
      have hempty : d.addrs ⟨off/BSIZE, Nat.lt_succ_of_lt hdirect⟩ = 0 := by
        rwa [bnSlot_direct hdirect] at hzero
      have haddr : (d.setAddr ⟨off/BSIZE, Nat.lt_succ_of_lt hdirect⟩ s.freeblock).addrs
          ⟨off/BSIZE, Nat.lt_succ_of_lt hdirect⟩ = s.freeblock := update_self ..
      rw [post_bind, post_addrBlock hlast, if_pos hempty, haddr]
      by_cases hfull : s.freeblock < FSSIZE
      · obtain ⟨htook, hslots⟩ := took_addr hin h ht hempty hfull
        rw [← bnSlot_direct hdirect] at hslots
        have hpos : s.freeblock ≠ 0 := by omega
        refine .inr ⟨1, htook, hneed, ?_, hpos, hfilled hpos fun y _ => hslots y, ?_⟩
        · rw [hslots, if_pos rfl]
        · have hind := hslots (.addr indirect)
          rw [if_neg (bnSlot_ne_indirect _).symm] at hind
          change (d.setAddr _ s.freeblock).addrs indirect = d.addrs indirect at hind
          rw [hind, hx.indirect, new_block hmod]
          exact ⟨.inr, fun hor => hor.resolve_left (Nat.ne_of_gt hdirect)⟩
      · refine .inl ⟨by omega, h.length, ?_⟩
        rw [Over]
        omega
    · have hj := entry_lt hmax hdirect
      rw [bnSlot_entry hdirect hj] at hzero hfilled ⊢
      -- the entry, once there is an indirect block
      have hentry {k : ℕ} {s1 : Image} {d1 : Dinode} (htook : Took inum k s d s1 d1)
          (hk : k+1+blocksFor off = blocksFor (off+1)) (hind : d1.addrs indirect ≠ 0)
          (hslots : ∀ x, x ≠ .addr indirect → slotAddr s1.block d1 x = slotAddr s.block d x) :
          post (entryBlock (d1.addrs indirect) (off/BSIZE-NDIRECT)) s1 (fun x s' =>
            (x = FSSIZE ∧ s'.length = FSSIZE ∧ Over s off) ∨
            ∃ k, Took inum k s d s' d1 ∧ k+blocksFor off = blocksFor (off+1) ∧
              x = slotAddr s'.block d1 (.entry ⟨off/BSIZE-NDIRECT, hj⟩) ∧ x ≠ 0 ∧
              Exact s'.block d1 (off+1)) (fun _ _ => Over s off) := by
        have hz : slotAddr s1.block d1 (.entry ⟨off/BSIZE-NDIRECT, hj⟩) = 0 := by
          rw [hslots _ Slot.noConfusion, hzero]
        have htype : d1.type ≠ 0 := by
          rw [htook.gained.fields]
          exact ht
        have hfree := htook.free
        have hlast1 := htook.disk.last
        refine post_imp (post_safe (entryBlock_fills hin htook.disk htype hind hj hz)) ?_
        rintro x s' ⟨rfl, hlen, hfill⟩
        by_cases hfull : s1.freeblock < FSSIZE
        · obtain ⟨htook', hslots'⟩ := hfill hfull
          have hpos : s1.freeblock ≠ 0 := by omega
          refine .inr ⟨k+1, htook.trans htook', hk, ?_, hpos, hfilled hpos fun y hy => ?_, ?_⟩
          · rw [hslots', if_pos rfl]
          · rw [hslots', hslots y hy]
          · exact iff_of_true hind (behind_direct.mpr hdirect)
        · refine .inl ⟨by omega, hlen, ?_⟩
          rw [Over]
          omega
      rw [post_bind, post_addrBlock hlast]
      split_ifs with hind
      · -- the first block behind the direct ones
        rw [if_pos ((first_behind_direct hmod hdirect).mpr fun hlt => hx.indirect.mpr hlt hind)]
          at hneed
        have haddr : (d.setAddr indirect s.freeblock).addrs indirect = s.freeblock := by
          simp only [Dinode.setAddr, update_self]
        rw [post_bind]
        by_cases hfull : s.freeblock < FSSIZE
        · obtain ⟨htook, hslots⟩ := took_addr hin h ht hind hfull
          exact hentry htook (by omega) (by rw [haddr]; omega) fun x hne => by rw [hslots, if_neg hne]
        · have hend : s.freeblock = FSSIZE := by omega
          rw [haddr, hend, entryBlock, post_bind, post_rsect_end (by exact h.length), Over]
          omega
      · rw [if_neg fun he => (first_behind_direct hmod hdirect).mp he (hx.indirect.mp hind)] at hneed
        rw [post_bind]
        exact hentry (.none h) (by omega) hind fun _ _ => rfl
  · -- the block is there
    have hz := (hx.block _ hmax).mpr (old_block_end hmod)
    have hdone := Took.none h
    split_ifs with hdirect
    · rw [bnSlot_direct hdirect] at hz ⊢
      change d.addrs _ ≠ 0 at hz
      rw [post_bind, post_addrBlock hlast, if_neg hz]
      exact .inr ⟨0, hdone, blocksFor_old hmod, rfl, hz, hx.congr (old_block hmod)⟩
    · have hj := entry_lt hmax hdirect
      rw [bnSlot_entry hdirect hj] at hz ⊢
      have hind : d.addrs indirect ≠ 0 := by
        intro he
        exact hz (if_pos he)
      rw [post_bind, post_addrBlock hlast, if_neg hind, post_bind]
      refine entryBlock_reads hin h ht hind hj hz ?_
      exact .inr ⟨0, hdone, blocksFor_old hmod, rfl, hz, hx.congr (old_block hmod)⟩

end Blocks

/-! ## Appending -/

/-- `iappend` has written `t` of the bytes at the end of a file, which was `d0` in `s0`. -/
structure Appending (inum : ℕ) (bytes : ℕ → UInt8) (s0 : Image) (d0 : Dinode) (t : ℕ) (s : Image)
    (d : Dinode) : Prop where
  wrote : WroteBytes cap inum bytes d0.size s0.block d0 t (· < s.freeblock) s.block d
  disk : Disk (flight cap s.block inum d) s
  size : Exact s.block d (d0.size+t)
  small : d0.size+t ≤ MAXFILE*BSIZE
  count : s.freeblock+blocksFor d0.size = s0.freeblock+blocksFor (d0.size+t)
  same : Same s0 s

section Appends
variable {inum : ℕ} {bytes : ℕ → UInt8} {s0 s : Image} {d0 d : Dinode} {t : ℕ}

theorem blocksFor_le {a : ℕ} (h : a ≤ b) : blocksFor a ≤ blocksFor b := by
  simp only [blocksFor, BSIZE, NDIRECT]
  split_ifs <;> omega

/-- A piece of a block does not need more blocks than its first byte. -/
theorem same_blocks (hpos : 0 < k) (hk : off % BSIZE+k ≤ BSIZE) (bn : ℕ) :
    bn*BSIZE < off+1 ↔ bn*BSIZE < off+k := by
  rw [BSIZE] at *
  omega

theorem blocksFor_piece (hpos : 0 < k) (hk : off % BSIZE+k ≤ BSIZE) :
    blocksFor (off+1) = blocksFor (off+k) := by
  simp only [blocksFor, BSIZE, NDIRECT] at *
  split_ifs <;> omega

theorem Disk.write_leaf (hin : inum < cap.ninodes) (h : Disk (flight cap s.block inum d) s)
    (ht : d.type ≠ 0) {x : Slot} (hx : x ≠ .addr indirect) (hz : slotAddr s.block d x ≠ 0) (v : Block) :
    Disk (flight cap (update s.block (slotAddr s.block d x) v) inum d)
      { s with block := update s.block (slotAddr s.block d x) v } := by
  obtain ⟨hdata, hused⟩ := h.owned.slot_used hin ht hz
  refine ⟨h.owned.write_leaf hin ht hx hz data_ne_iblock v, h.length, h.first, h.last,
    fun b hb hb' => ?_, fun b hb hb' => ?_⟩
  · dsimp only at hb hused ⊢
    rw [update_of_ne (by omega)]
    exact h.zero b hb hb'
  · obtain ⟨n, hn, htn, y, hy⟩ := h.covered b hb hb'
    have hsame : flight cap (update s.block (slotAddr s.block d x) v) inum d n =
        flight cap s.block inum d n := flight_update (data_ne_iblock _ hdata n hn)
    refine ⟨n, hn, by rwa [hsame], y, ?_⟩
    rw [hsame, slotAddr_update fun _ => h.owned.leaf_ne_indirect hin ht hx hz hn htn, hy]

theorem Appending.piece (hin : inum < cap.ninodes) (ht : d0.type ≠ 0)
    (hmax : d0.size ≤ MAXFILE*BSIZE) (h : Appending inum bytes s0 d0 t s d)
    (hlt : (d0.size+t)/BSIZE < MAXFILE) {s1 : Image} {d1 : Dinode}
    (htook : Took inum k s d s1 d1) (hk : k+blocksFor (d0.size+t) = blocksFor (d0.size+t+1))
    (hz : slotAddr s1.block d1 (bnSlot ((d0.size+t)/BSIZE)) ≠ 0)
    (hexact : Exact s1.block d1 (d0.size+t+1)) (hpos : 0 < n)
    (hn : (d0.size+t) % BSIZE+n ≤ BSIZE) :
    Appending inum bytes s0 d0 (t+n) { s1 with
      block := update s1.block (slotAddr s1.block d1 (bnSlot ((d0.size+t)/BSIZE)))
        (splice (s1.block (slotAddr s1.block d1 (bnSlot ((d0.size+t)/BSIZE)))) ((d0.size+t) % BSIZE) n
          fun i => bytes (t+i)) } d1 := by
  have hwrote := h.wrote.gained htook.gained
  have htype : d1.type ≠ 0 := by
    rw [hwrote.fields]
    exact ht
  have hleaf := bnSlot_ne_indirect ((d0.size+t)/BSIZE)
  have hslot := htook.disk.owned.slot_used hin htype hz
  have hend : d0.size+(t+n) ≤ MAXFILE*BSIZE := by
    rw [BSIZE] at *
    omega
  rw [isData_iff] at hslot
  refine ⟨hwrote.piece hin ht data_ne_iblock hz hpos hn (by omega),
    htook.disk.write_leaf hin htype hleaf hz _, ?_, hend, ?_, ?_, ?_, ?_⟩
  · have hpiece := hexact.congr (same_blocks hpos hn)
    rw [Nat.add_assoc] at hpiece
    refine ⟨fun bn hbn => ?_, ?_⟩
    · rw [htook.disk.owned.slotAddr_leaf hin htype hleaf hz]
      exact hpiece.block bn hbn
    · exact hpiece.indirect
  · have hfree := htook.free
    have hcount := h.count
    have hblocks := blocksFor_piece hpos hn
    rw [← Nat.add_assoc]
    dsimp only
    omega
  · exact htook.same.freeinode.trans h.same.freeinode
  · exact htook.same.written.trans h.same.written
  · dsimp only
    rw [update_of_ne (by omega), htook.same.super, h.same.super]

def TooBig (s0 : Image) (size n : ℕ) : Prop :=
  MAXFILE*BSIZE < size+n ∨ FSSIZE+blocksFor size < s0.freeblock+blocksFor (size+n)

theorem iappendLoop_appends (hin : inum < cap.ninodes) (ht : d0.type ≠ 0)
    (hmax : d0.size ≤ MAXFILE*BSIZE) (fuel : ℕ) (htn : t ≤ n) (hfuel : n-t ≤ fuel)
    (h : Appending inum bytes s0 d0 t s d) :
    post (iappendLoop bytes fuel d (d0.size+t) t (n-t)) s
      (fun r s' => r.1 = d0.size+n ∧ Appending inum bytes s0 d0 n s' r.2)
      (fun _ _ => TooBig s0 d0.size n) := by
  induction fuel generalizing t s d with
  | zero =>
    obtain rfl : t = n := by omega
    exact ⟨rfl, h⟩
  | succ fuel ih =>
    rw [iappendLoop]
    split_ifs with hpos hblock
    · have hsub : (d0.size+t)-(d0.size+t)/BSIZE*BSIZE = (d0.size+t) % BSIZE := by
        rw [BSIZE]
        omega
      -- the block is too far out
      have hover (hov : Over s (d0.size+t)) : TooBig s0 d0.size n := by
        have hle := blocksFor_le (show d0.size+t+1 ≤ d0.size+n by omega)
        have hcount := h.count
        rw [Over] at hov
        exact .inr (by omega)
      have htype : d.type ≠ 0 := by
        rw [h.wrote.fields]
        exact ht
      refine post_bind_of (post_errors (fileBlock_finds hin h.disk htype hblock h.size) fun _ _ => hover) ?_
      rintro ⟨x, d1⟩ s1 hfound
      dsimp only at hfound ⊢
      obtain ⟨rfl, hlen, hov⟩ | ⟨k, htook, hk, rfl, hz, hexact⟩ := hfound
      · rw [post_bind, post_rsect_end hlen]
        exact hover hov
      · obtain ⟨n1, hn1⟩ : ∃ n1, n1 = min (n-t) (((d0.size+t)/BSIZE+1)*BSIZE-(d0.size+t)) := ⟨_, rfl⟩
        have hfit : (d0.size+t) % BSIZE+n1 ≤ BSIZE ∧ 0 < n1 := by
          rw [BSIZE] at *
          omega
        have htype1 : d1.type ≠ 0 := by
          rw [htook.gained.fields]
          exact htype
        have hslot : slotAddr s1.block d1 (bnSlot ((d0.size+t)/BSIZE)) < FSSIZE :=
          (htook.disk.owned.slot_used hin htype1 hz).1.2
        rw [← hn1, hsub, post_bind, post_rsect htook.disk.length hslot, post_bind,
          post_wsect htook.disk.length hslot, Nat.add_assoc, Nat.sub_sub]
        exact ih (by omega) (by omega) (h.piece hin ht hmax hblock htook hk hz hexact hfit.2 hfit.1)
    · rw [MAXFILE, BSIZE] at hblock
      refine .inl ?_
      rw [MAXFILE, BSIZE]
      omega
    · obtain rfl : t = n := by omega
      exact ⟨rfl, h⟩

end Appends

/-! ## The files on the image -/

/-- Types and contents of the inodes 1, 2 and so on. -/
abbrev Files := List (ℕ × List UInt8)

def Files.append (L : Files) (i : ℕ) (bytes : List UInt8) : Files :=
  L.modify i fun f => (f.1, f.2++bytes)

def Files.blocks (L : Files) : ℕ := (L.map fun f => blocksFor f.2.length).sum

def Files.Fit (L : Files) : Prop := (∀ f ∈ L, f.2.length ≤ MAXFILE*BSIZE) ∧ L.blocks ≤ nblocks

structure FileIs (B : ℕ → Block) (n : ℕ) (f : ℕ × List UInt8) : Prop where
  type : f.1 ≠ 0
  small : f.2.length ≤ MAXFILE*BSIZE
  fields : dinodeOf cap B n =
    { newInode f.1 with size := f.2.length, addrs := (dinodeOf cap B n).addrs }
  blocks : Exact B (dinodeOf cap B n) f.2.length
  contents : ∀ x < f.2.length, fileByte B (dinodeOf cap B n) x = f.2.getD x 0

/-- The inodes of the image are the files of the list. -/
structure Holds (L : Files) (s : Image) : Prop where
  disk : Disk (dinodeOf cap s.block) s
  count : s.freeinode = L.length+1
  few : L.length < cap.ninodes
  files : ∀ i f, L[i]? = some f → FileIs s.block (i+1) f
  rest : ∀ n < cap.ninodes, n = 0 ∨ L.length < n → (dinodeOf cap s.block n).type = 0
  blocks : s.freeblock = nmeta+L.blocks
  super : s.block 1 = superBlock
  written : ∀ n ∈ s.written, 1 ≤ n ∧ n ≤ L.length

section Lists
variable {L : Files} {i : ℕ} {f : ℕ × List UInt8} {bytes : List UInt8}

theorem Files.length_append : (L.append i bytes).length = L.length := List.length_modify ..

theorem Files.append_get (hi : L[i]? = some f) (bytes : List UInt8) :
    (L.append i bytes)[i]? = some (f.1, f.2++bytes) := by
  rw [append, List.getElem?_modify, hi]
  simp

theorem Files.append_get_other (hj : j ≠ i) : (L.append i bytes)[j]? = L[j]? := by
  rw [append]
  simp [hj.symm]

theorem Files.blocks_append (hi : L[i]? = some f) (bytes : List UInt8) :
    (L.append i bytes).blocks+blocksFor f.2.length =
      L.blocks+blocksFor (f.2.length+bytes.length) := by
  induction L generalizing i with
  | nil => cases hi
  | cons g L ih =>
    cases i with
    | zero =>
      obtain rfl : g = f := by simpa using hi
      simp only [append, blocks, List.modify_zero_cons, List.map_cons, List.sum_cons,
        List.length_append]
      omega
    | succ i =>
      have := ih (i := i) (by simpa using hi)
      simp only [append, blocks, List.modify_succ_cons, List.map_cons, List.sum_cons] at this ⊢
      omega

theorem Files.blocks_snoc (t : ℕ) : blocks (L++[(t, [])]) = L.blocks := by
  simp [blocks, blocksFor]

theorem Files.Fit.of_append (hi : L[i]? = some f) (h : (L.append i bytes).Fit) : L.Fit := by
  have hblocks := blocks_append hi bytes
  have hle := blocksFor_le (Nat.le_add_right f.2.length bytes.length)
  have hfit := h.2
  refine ⟨fun g hg => ?_, by omega⟩
  obtain ⟨j, hj⟩ := List.mem_iff_getElem?.mp hg
  by_cases hji : j = i
  · subst hji
    rw [hi] at hj
    cases hj
    have := h.1 _ (List.mem_of_getElem? (append_get hi bytes))
    rw [List.length_append] at this
    omega
  · exact h.1 g (List.mem_of_getElem? ((append_get_other hji).trans hj))

end Lists

section Inodes
variable {inum n : ℕ} {s : Image} {d d' : Dinode} {B B' : ℕ → Block} {f : ℕ × List UInt8}

theorem FileIs.untouched (h : FileIs B n f) (hu : Untouched cap B B' n) : FileIs B' n f := by
  obtain ⟨hd, hblocks⟩ := hu
  have hslots (x : Slot) : slotAddr B' (dinodeOf cap B n) x = slotAddr B (dinodeOf cap B n) x :=
    slotAddr_blocks fun hz => (hblocks (.addr indirect) hz).2
  refine ⟨h.type, h.small, by rw [hd]; exact h.fields, ?_, fun x hx => ?_⟩
  · rw [hd]
    refine ⟨fun bn hbn => ?_, h.blocks.indirect⟩
    rw [hslots]
    exact h.blocks.block bn hbn
  · have hz := (h.blocks.block (x/BSIZE) (block_lt_maxfile (Nat.lt_of_lt_of_le hx h.small))).mpr
      (block_start_lt hx)
    rw [← h.contents x hx, fileByte, fileByte, hd, hslots, (hblocks _ hz).2]

theorem Disk.iupdate (hin : inum < cap.ninodes) (h : Disk (flight cap s.block inum d) s)
    (hfits : d'.Fits) (haddrs : d'.addrs = d.addrs) (htype : d'.type ≠ 0 ∧ d.type ≠ 0) (w : List ℕ) :
    Disk (dinodeOf cap (iupdated cap s.block inum d'))
      { s with block := iupdated cap s.block inum d', written := w } := by
  have howned := h.owned.set_fields hfits haddrs fun _ => htype.2
  have hfirst : 47 ≤ s.freeblock := h.first
  refine ⟨howned.iupdate hin data_ne_iblock, h.length, h.first, h.last, fun b hb hb' => ?_,
    fun b hb hb' => ?_⟩
  · dsimp only at hb ⊢
    rw [iupdated, update_of_ne (data_ne_iblock b ⟨by exact hfirst.trans hb, hb'⟩ inum hin)]
    exact h.zero b hb hb'
  · obtain ⟨n, hn, htn, x, hx⟩ := h.covered b hb hb'
    have hsame : slotAddr s.block (flight cap s.block inum d' n) x = b ∧
        (flight cap s.block inum d' n).type ≠ 0 := by
      by_cases hne : n = inum
      · subst hne
        rw [flight_self] at hx ⊢
        exact ⟨(slotAddr_congr haddrs).trans hx, htype.1⟩
      · rw [flight_other hne] at hx htn ⊢
        exact ⟨hx, htn⟩
    refine ⟨n, hn, ?_, x, ?_⟩
    · rw [dinodeOf_iupdated hfits]
      exact hsame.2
    · rw [dinodeOf_iupdated hfits, howned.slotAddr_iupdated hin data_ne_iblock hn hsame.2]
      exact hsame.1

theorem Disk.newborn (h : Disk (dinodeOf cap s.block) s) (hold : (dinodeOf cap s.block inum).type = 0)
    (hfits : d.Fits) (hd : ∀ k, d.addrs k = 0) : Disk (flight cap s.block inum d) s := by
  have hslot (x : Slot) : slotAddr s.block d x = 0 := by
    cases x with
    | addr k => exact hd k
    | entry j => exact if_pos (hd indirect)
  have hother {n : ℕ} {x : Slot} (hz : slotAddr s.block (flight cap s.block inum d n) x ≠ 0) :
      flight cap s.block inum d n = dinodeOf cap s.block n := by
    refine flight_other fun hne => hz ?_
    rw [hne, flight_self]
    exact hslot x
  refine ⟨⟨⟨fun n hn => ?_, fun n hn htn x hz => ?_⟩, fun n hn htn x hz => ?_,
    fun n hn n' hn' htn htn' x x' hz he => ?_⟩, h.length, h.first, h.last, h.zero, fun b hb hb' => ?_⟩
  · by_cases hne : n = inum
    · rw [hne, flight_self]
      exact hfits
    · rw [flight_other hne]
      exact h.owned.fits n hn
  · have hn1 := hother hz
    rw [hn1] at htn hz ⊢
    exact h.owned.ranged n hn htn x hz
  · have hn1 := hother hz
    rw [hn1] at htn hz ⊢
    exact h.owned.used n hn htn x hz
  · have hn1 := hother hz
    have hn2 := hother (he ▸ hz)
    rw [hn1] at htn hz he
    rw [hn2] at htn' he
    exact h.owned.once n hn n' hn' htn htn' x x' hz he
  · obtain ⟨n, hn, htn, x, hx⟩ := h.covered b hb hb'
    have hne : n ≠ inum := fun hne => htn (hne ▸ hold)
    refine ⟨n, hn, ?_, x, ?_⟩
    · rwa [flight_other hne]
    · rwa [flight_other hne]

theorem untouched_iupdated (hin : inum < cap.ninodes) (h : Disk (dinodeOf cap s.block) s)
    (hfits : d.Fits) (hn : n < cap.ninodes) (hne : n ≠ inum)
    (ht : (dinodeOf cap s.block n).type ≠ 0) :
    Untouched cap s.block (iupdated cap s.block inum d) n := by
  have hblock (x : Slot) (hz : slotAddr s.block (dinodeOf cap s.block n) x ≠ 0) :
      iupdated cap s.block inum d (slotAddr s.block (dinodeOf cap s.block n) x) =
        s.block (slotAddr s.block (dinodeOf cap s.block n) x) :=
    update_of_ne (data_ne_iblock _ (h.owned.ranged n hn ht x hz) inum hin) ..
  refine ⟨?_, fun x hz => ⟨?_, hblock x hz⟩⟩
  · rw [dinodeOf_iupdated hfits, flight_other hne]
  · exact slotAddr_blocks (hblock (.addr indirect))

end Inodes

section Operations
variable {L : Files} {s : Image} {i : ℕ} {f : ℕ × List UInt8}

theorem Holds.get_lt (h : Holds L s) (hi : L[i]? = some f) : i < L.length ∧ i+1 < cap.ninodes := by
  have hlt := (List.getElem?_eq_some_iff.mp hi).1
  have hfew := h.few
  exact ⟨hlt, by omega⟩

theorem newInode_fits {t : ℕ} (ht : t < 2^16) : (newInode t).Fits :=
  ⟨ht, Nat.two_pow_pos 16, Nat.two_pow_pos 16, Nat.one_lt_two_pow (by decide), Nat.two_pow_pos 32,
    fun _ => Nat.two_pow_pos 32⟩

theorem iappend_holds (h : Holds L s) (hi : L[i]? = some f) (bytes : List UInt8) :
    post (iappend (i+1) bytes) s (fun _ s' => Holds (L.append i bytes) s')
      (fun _ _ => ¬(L.append i bytes).Fit) := by
  obtain ⟨hlt, hin⟩ := h.get_lt hi
  have hfile := h.files i f hi
  have hblocks := Files.blocks_append hi bytes
  have hfree := h.blocks
  have hsum : nmeta+nblocks = FSSIZE := rfl
  have hget := Files.append_get hi bytes
  have hsize : (dinodeOf cap s.block (i+1)).size = f.2.length := by rw [hfile.fields]
  have htype : (dinodeOf cap s.block (i+1)).type ≠ 0 := by
    rw [hfile.fields]
    exact hfile.type
  obtain ⟨d0, hd0⟩ : ∃ d0, d0 = dinodeOf cap s.block (i+1) := ⟨_, rfl⟩
  have hmax : d0.size ≤ MAXFILE*BSIZE := by
    rw [hd0, hsize]
    exact hfile.small
  have hexact : Exact s.block d0 d0.size := by
    rw [hd0, hsize]
    exact hfile.blocks
  have hfull (bn : ℕ) (hbn : bn*BSIZE < d0.size) : slotAddr s.block d0 (bnSlot bn) ≠ 0 := by
    refine (hexact.block bn ?_).mpr hbn
    exact Nat.lt_of_mul_lt_mul_right (Nat.lt_of_lt_of_le hbn hmax)
  have hrest : Disk (flight cap s.block (i+1) d0) s := by
    rw [hd0, flight_rest]
    exact h.disk
  have hstart : Appending (i+1) (fun k => bytes.getD k 0) s d0 0 s d0 :=
    ⟨.start hrest.owned le_rfl hfull, hrest, hexact, hmax, rfl, rfl, rfl, rfl⟩
  rw [← hd0] at hsize htype
  rw [iappend, post_bind, post_rinode h.disk.length hin, ← hd0]
  refine post_bind_of (post_errors (iappendLoop_appends hin htype hmax bytes.length (Nat.zero_le _) le_rfl
    hstart) fun _ _ hbig hfit => ?_) ?_
  · -- it has died
    have hlong := hfit.1 _ (List.mem_of_getElem? hget)
    have hroom := hfit.2
    rw [List.length_append] at hlong
    rw [hsize] at hbig
    rcases hbig with hbig | hbig <;> omega
  rintro ⟨off, d1⟩ s1 ⟨hoff, happ⟩
  dsimp only at hoff happ ⊢
  subst hoff
  obtain ⟨d2, hd2⟩ : ∃ d2, d2 = { d1 with size := d0.size+bytes.length } := ⟨_, rfl⟩
  rw [← hd2, post_winode happ.disk.length hin]
  have hd1 := happ.wrote.fields
  have htype2 : d2.type ≠ 0 ∧ d1.type ≠ 0 := by
    rw [hd2, hd1]
    exact ⟨htype, htype⟩
  have haddrs : d2.addrs = d1.addrs := by rw [hd2]
  have hfits : d2.Fits := by
    have hf := happ.disk.owned.fits (i+1) hin
    have hlt32 : MAXFILE*BSIZE < 2^32 := by decide
    rw [flight_self] at hf
    rw [hd2]
    exact ⟨hf.type, hf.major, hf.minor, hf.nlink, Nat.lt_of_le_of_lt happ.small hlt32, hf.addrs⟩
  have hstored := happ.wrote.iupdate hin htype data_ne_iblock hfits htype2.1 haddrs
  refine ⟨happ.disk.iupdate hin hfits haddrs htype2 _, ?_, ?_, fun j g hj => ?_, fun n hn hout => ?_, ?_,
    ?_, fun n hn => ?_⟩
  · rw [Files.length_append, ← h.count]
    exact happ.same.freeinode
  · rw [Files.length_append]
    exact h.few
  · by_cases hji : j = i
    · subst hji
      rw [hget] at hj
      cases hj
      refine ⟨hfile.type, ?_, ?_, ?_, fun x hx => ?_⟩
      · rw [List.length_append, ← hsize]
        exact happ.small
      · rw [hstored.stored, hd2, hd1, hd0, hfile.fields, List.length_append]
      · rw [hstored.stored, List.length_append, ← hsize]
        refine ⟨fun bn hbn => ?_, ?_⟩
        · rw [hstored.slots]
          exact happ.size.block bn hbn
        · rw [haddrs]
          exact happ.size.indirect
      · rw [List.length_append] at hx
        rw [hstored.stored, hstored.contents x (by omega)]
        split_ifs with hnew
        · rw [List.getD_append_right _ _ _ _ (by omega), hsize]
        · rw [List.getD_append _ _ _ _ (by omega), ← hfile.contents x (by omega), hd0]
    · rw [Files.append_get_other hji] at hj
      have hold := h.files j g hj
      refine hold.untouched (hstored.others (j+1) (h.get_lt hj).2 (by omega) ?_)
      rw [hold.fields]
      exact hold.type
  · rw [Files.length_append] at hout
    rw [dinodeOf_iupdated hfits, flight_other (by omega), happ.wrote.disk n hn]
    exact h.rest n hn hout
  · have hcount := happ.count
    rw [hsize] at hcount
    dsimp only
    omega
  · dsimp only
    rw [iupdated, update_of_ne (by rw [iblock_eq]; omega), happ.same.super, h.super]
  · rw [Files.length_append]
    rw [List.mem_cons, happ.same.written] at hn
    rcases hn with rfl | hn
    · omega
    · exact h.written n hn

theorem ialloc_holds (h : Holds L s) (hfew : L.length+1 < cap.ninodes) {t : ℕ} (ht : t ≠ 0)
    (hlt : t < 2^16) :
    post (ialloc t) s (fun r s' => r = L.length+1 ∧ Holds (L++[(t, [])]) s') never := by
  have hcount : (s.freeinode+1) % 2^32 = L.length+1+1 := by
    rw [h.count]
    rw [cap_ninodes] at hfew
    omega
  have hold := h.rest (L.length+1) hfew (.inr (by omega))
  have hfits := newInode_fits hlt
  have hdisk := (h.disk.newborn hold hfits fun _ => rfl).iupdate hfew hfits rfl ⟨ht, ht⟩
    ((L.length+1) :: s.written)
  rw [ialloc, post_bind, post_get, post_bind, post_modify, post_bind, h.count, post_winode
    (by exact h.disk.length) hfew, post_pure]
  have hself : dinodeOf cap (iupdated cap s.block (L.length+1) (newInode t)) (L.length+1) =
      newInode t := by
    rw [dinodeOf_iupdated hfits, flight_self]
  refine ⟨rfl, ⟨hdisk.owned, hdisk.length, hdisk.first, hdisk.last, hdisk.zero, hdisk.covered⟩, ?_, ?_,
    fun j g hj => ?_, fun n hn hout => ?_, ?_, ?_, fun n hn => ?_⟩
  · rw [List.length_append]
    rw [← h.count, hcount]
    rfl
  · rw [List.length_append]
    exact hfew
  · by_cases hlast : j = L.length
    · rw [hlast, List.getElem?_concat_length] at hj
      cases hj
      rw [hlast]
      have hempty (x : Slot) : slotAddr (iupdated cap s.block (L.length+1) (newInode t))
          (newInode t) x = 0 := by
        cases x with
        | addr k => rfl
        | entry k => simp [slotAddr, newInode, Dinode.zero]
      refine ⟨ht, Nat.zero_le _, ?_, ?_, fun x hx => absurd hx (Nat.not_lt_zero x)⟩
      · rw [hself]
        rfl
      · rw [hself]
        refine ⟨fun bn _ => iff_of_false ?_ (Nat.not_lt_zero _), iff_of_false ?_ (Nat.not_lt_zero _)⟩
        · exact fun hne => hne (hempty _)
        · exact fun hne => hne rfl
    · have hjlt : j < L.length := by
        have := (List.getElem?_eq_some_iff.mp hj).1
        rw [List.length_append, List.length_singleton] at this
        omega
      rw [List.getElem?_append_left hjlt] at hj
      have hfile := h.files j g hj
      refine hfile.untouched (untouched_iupdated hfew h.disk hfits (h.get_lt hj).2 (by omega) ?_)
      rw [hfile.fields]
      exact hfile.type
  · rw [List.length_append, List.length_singleton] at hout
    rw [dinodeOf_iupdated hfits, flight_other (by omega)]
    exact h.rest n hn (by omega)
  · rw [Files.blocks_snoc]
    exact h.blocks
  · dsimp only
    rw [iupdated, update_of_ne (by rw [iblock_eq]; omega), h.super]
  · rw [List.length_append, List.length_singleton]
    rw [List.mem_cons] at hn
    rcases hn with rfl | hn
    · omega
    · have := h.written n hn
      omega

end Operations

end Xv6.Mkfs
