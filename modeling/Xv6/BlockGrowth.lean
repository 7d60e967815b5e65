import Xv6.BlockOwners
import Xv6.BlockSpecs

/-! What `balloc` and `bmap` do on a consistent disk: the inode gets blocks that nobody had, or
there is no block left. -/
namespace Xv6.BlockFs
open ByteFields StateOutcome Function

/-! ## The bitmap -/

def marked (sb : Superblock) (B : ℕ → Block) (b : ℕ) : Bool := getBit (B (sb.bblock b)) (b % BPB)

def Full (sb : Superblock) (B : ℕ → Block) : Prop := ∀ b < sb.size, marked sb B b = true

/-- The disk after `balloc` has taken block `a`. -/
def afterBalloc (sb : Superblock) (B : ℕ → Block) (a : ℕ) : ℕ → Block :=
  update (update B (sb.bblock a) (setBit (B (sb.bblock a)) (a % BPB))) a zeroBlock

section Layout
variable {sb : Superblock} {b n : ℕ} (h : sb.Ok)

theorem bblock_lt (hb : b < sb.size) : sb.bblock b < sb.dataStart := by
  have hle : b/BPB ≤ sb.size/BPB := Nat.div_le_div_right hb.le
  rw [Superblock.bblock, Superblock.dataStart]
  omega

theorem data_ne_bblock {a : ℕ} (ha : sb.IsData a) (hb : b < sb.size) : a ≠ sb.bblock b := by
  have := bblock_lt hb
  have := ha.1
  omega

include h

theorem iblock_lt (hn : n < sb.ninodes) : sb.iblock n < sb.bmapstart := by
  have hlt := Nat.div_lt_of_lt_mul (Nat.lt_of_lt_of_le hn (by rw [Nat.mul_comm]; exact h.inodes))
  rw [Superblock.iblock]
  generalize n/IPB = q at hlt ⊢
  omega

theorem bblock_ne_iblock (hn : n < sb.ninodes) : sb.bblock b ≠ sb.iblock n := by
  have := iblock_lt h hn
  have : sb.bmapstart ≤ sb.bblock b := Nat.le_add_left _ _
  omega

theorem data_ne_iblock (hb : sb.IsData b) (hn : n < sb.ninodes) : b ≠ sb.iblock n := by
  have := iblock_lt h hn
  have := sb.bmap_lt
  have := hb.1
  omega

end Layout

variable {bi : ℕ} {B B' : ℕ → Block}

section Bitmap
variable {sb : Superblock} {B : ℕ → Block} {a : ℕ} {s : Store}

theorem marked_afterBalloc (ha : sb.IsData a) {c : ℕ} (hc : c < sb.size) :
    marked sb (afterBalloc sb B a) c = (marked sb B c || decide (c = a)) := by
  have hmod : a % BPB < BPB := Nat.mod_lt _ (by decide)
  rw [marked, marked, afterBalloc, update_of_ne (data_ne_bblock ha hc).symm]
  by_cases hblock : sb.bblock c = sb.bblock a
  · rw [hblock, update_self, getBit_setBit _ _ _ hmod]
    congr 1
    refine decide_eq_decide.mpr ⟨fun he => ?_, fun he => by rw [he]⟩
    calc
      c = BPB*(c/BPB)+c % BPB := (Nat.div_add_mod c BPB).symm
      _ = BPB*(a/BPB)+a % BPB := by rw [he, Nat.add_right_cancel hblock]
      _ = a := Nat.div_add_mod a BPB
  · have hne : c ≠ a := by
      rintro rfl
      exact hblock rfl
    rw [update_of_ne hblock, decide_eq_false hne, Bool.or_false]

theorem afterBalloc_taken (hsb : sb.Ok) (ha : sb.IsData a) (hfree : marked sb B a = false) :
    Taken sb (marked sb B · = true) B a (marked sb (afterBalloc sb B a) · = true)
      (afterBalloc sb B a) := by
  refine ⟨ha, by rw [hfree]; exact Bool.false_ne_true, update_self .., fun b hb hne => ?_,
    fun n hn => ?_, fun b hb hcase => ?_⟩
  · rw [afterBalloc, update_of_ne hne, update_of_ne (data_ne_bblock hb ha.2)]
  · rw [afterBalloc, dinodeOf_update (data_ne_iblock hsb ha hn),
      dinodeOf_update (bblock_ne_iblock hsb hn)]
  · rw [marked_afterBalloc ha hb.2, Bool.or_eq_true, decide_eq_true_iff]
    exact hcase

theorem findFree_spec {data : Block} {n r : ℕ} (h : findFree data n bi = some r) :
    bi ≤ r ∧ r < bi+n ∧ getBit data r = false := by
  induction n generalizing bi with
  | zero => exact absurd h (by simp [findFree])
  | succ n ih =>
    rw [findFree] at h
    split_ifs at h with hbit
    · obtain ⟨hlo, hhi, hr⟩ := ih h
      exact ⟨by omega, by omega, hr⟩
    · cases h
      exact ⟨le_rfl, by omega, by simpa using hbit⟩

theorem findFree_none {data : Block} {n : ℕ} (h : findFree data n bi = none) :
    ∀ r, bi ≤ r → r < bi+n → getBit data r = true := by
  induction n generalizing bi with
  | zero => exact fun r hlo hhi => absurd hhi (by omega)
  | succ n ih =>
    rw [findFree] at h
    split_ifs at h with hbit
    · intro r hlo hhi
      by_cases hr : r = bi
      · rw [hr]
        exact hbit
      · exact ih h r (by omega) (by omega)

theorem bblock_within (sb : Superblock) (k : ℕ) (hbi : bi < BPB) :
    sb.bblock (k*BPB+bi) = sb.bblock (k*BPB) ∧ (k*BPB+bi) % BPB = bi := by
  have hdiv : (k*BPB+bi)/BPB = k*BPB/BPB := by
    rw [BPB, BSIZE] at hbi ⊢
    omega
  refine ⟨by rw [Superblock.bblock, Superblock.bblock, hdiv], ?_⟩
  rw [BPB, BSIZE] at hbi ⊢
  omega

/-- The loop of `balloc` over the bitmap blocks from number `k` on. -/
theorem ballocFrom_takes (hmeta : ∀ b < sb.dataStart, marked sb s.block b = true) (n k : ℕ)
    (hfull : ∀ b < k*BPB, b < sb.size → marked sb s.block b = true) (hend : sb.size ≤ (k+n)*BPB) :
    post (ballocFrom sb n (k*BPB)) s (fun a s' => (a = 0 ∧ s' = s ∧ Full sb s.block) ∨
      sb.IsData a ∧ marked sb s.block a = false ∧ s'.block = afterBalloc sb s.block a)
      never := by
  induction n generalizing k with
  | zero =>
    rw [Nat.add_zero] at hend
    exact .inl ⟨rfl, rfl, fun b hb => hfull b (by omega) hb⟩
  | succ n ih =>
    -- the bits of this bitmap block are those of the blocks from `k*BPB` on
    have hbit (bi : ℕ) (hbi : bi < BPB) :
        marked sb s.block (k*BPB+bi) = getBit (s.block (sb.bblock (k*BPB))) bi := by
      obtain ⟨hblock, hmod⟩ := bblock_within sb k hbi
      rw [marked, hmod, hblock]
    simp only [ballocFrom, bread, post_bind, post_get, post_pure]
    cases hfind : findFree (s.block (sb.bblock (k*BPB))) (min BPB (sb.size-k*BPB)) 0 with
    | none =>
      have hnone := findFree_none hfind
      rw [← Nat.succ_mul]
      refine ih (k+1) (fun b hb hsize => ?_) (by rw [Nat.add_right_comm]; exact hend)
      by_cases hlt : b < k*BPB
      · exact hfull b hlt hsize
      · obtain ⟨bi, rfl⟩ : ∃ bi, b = k*BPB+bi := ⟨b-k*BPB, by omega⟩
        rw [Nat.succ_mul] at hb
        rw [hbit bi (by omega)]
        exact hnone bi (Nat.zero_le _) (by omega)
    | some bi =>
      obtain ⟨_, hlt, hclear⟩ := findFree_spec hfind
      have hsize : k*BPB+bi < sb.size := by omega
      have hfree : marked sb s.block (k*BPB+bi) = false := by
        rw [hbit bi (by omega)]
        exact hclear
      have hdata : sb.IsData (k*BPB+bi) := by
        refine ⟨?_, hsize⟩
        by_contra hn
        rw [hmeta _ (by omega)] at hfree
        exact Bool.false_ne_true hfree.symm
      obtain ⟨hblock, hmod⟩ := bblock_within sb k (by omega : bi < BPB)
      refine .inr ⟨hdata, hfree, ?_⟩
      rw [afterBalloc, hblock, hmod]

theorem balloc_takes (hmeta : ∀ b < sb.dataStart, marked sb s.block b = true) :
    post (balloc sb) s (fun a s' => (a = 0 ∧ s' = s ∧ Full sb s.block) ∨
      sb.IsData a ∧ marked sb s.block a = false ∧ s'.block = afterBalloc sb s.block a)
      never := by
  have h := ballocFrom_takes hmeta ((sb.size+BPB-1)/BPB) 0 (fun b hb => absurd hb (by omega)) (by
    rw [BPB, BSIZE]
    omega)
  rwa [Nat.zero_mul] at h

end Bitmap

/-! ## Consistent disks -/

/-- Blocks that are in use are marked in the bitmap and belong to one inode each. -/
structure Consistent (sb : Superblock) (B : ℕ → Block) (I : ℕ → Dinode) : Prop
    extends Owned sb (marked sb B · = true) B I where
  metadata : ∀ b < sb.dataStart, marked sb B b = true

/-- What getting blocks for an inode does. -/
structure Grown (sb : Superblock) (inum : ℕ) (B : ℕ → Block) (d : Dinode) (B' : ℕ → Block)
    (d' : Dinode) : Prop extends Gained sb inum B d (marked sb B' · = true) B' d' where
  metadata : ∀ b < sb.dataStart, marked sb B' b = true
  marks : ∀ b < sb.size, marked sb B b = true → marked sb B' b = true

section Growing
variable {sb : Superblock} {s : Store} {inum : ℕ} {d : Dinode}

theorem Grown.refl (h : Consistent sb B (flight sb B inum d)) : Grown sb inum B d B d :=
  ⟨.refl h.toOwned, h.metadata, fun _ _ hm => hm⟩

theorem Grown.consistent {d' : Dinode} (h : Grown sb inum B d B' d') :
    Consistent sb B' (flight sb B' inum d') :=
  ⟨h.owned, h.metadata⟩

theorem Grown.trans {B'' : ℕ → Block} {d' d'' : Dinode} (h : Grown sb inum B d B' d')
    (h' : Grown sb inum B' d' B'' d'') : Grown sb inum B d B'' d'' :=
  ⟨h.toGained.trans h'.toGained, h'.metadata, fun b hb hm => h'.marks b hb (h.marks b hb hm)⟩

variable (hsb : sb.Ok)
include hsb

theorem size_le : sb.size ≤ 2^32 := by
  have := hsb.size
  omega

omit hsb in
theorem marks_afterBalloc {a b : ℕ} (ha : sb.IsData a) (hb : b < sb.size)
    (hm : marked sb B b = true) : marked sb (afterBalloc sb B a) b = true := by
  rw [marked_afterBalloc ha hb, hm, Bool.true_or]

theorem metadata_afterBalloc {a : ℕ} (ha : sb.IsData a)
    (hmeta : ∀ b < sb.dataStart, marked sb B b = true) :
    ∀ b < sb.dataStart, marked sb (afterBalloc sb B a) b = true :=
  fun b hb => marks_afterBalloc ha (Nat.lt_of_lt_of_le hb hsb.data) (hmeta b hb)

variable (hin : inum < sb.ninodes) (h : Consistent sb s.block (flight sb s.block inum d))
  (ht : d.type ≠ 0)
include hin h ht

theorem bmapSlot_grows (k : Fin (NDIRECT+1)) :
    post (bmapSlot sb d k) s (fun r s' => Grown sb inum s.block d s'.block r.2 ∧
      r.2.addrs k = r.1 ∧ (r.1 = 0 → Full sb s'.block)) never := by
  unfold bmapSlot
  split_ifs with hz
  · apply post_bind_of (balloc_takes h.metadata)
    intro a s1 hcase
    rcases hcase with ⟨rfl, rfl, hfull⟩ | ⟨ha, hfree, hblock⟩
    · exact ⟨.refl h, hz, fun _ => hfull⟩
    · rw [if_neg ha.pos]
      obtain ⟨hgain, _⟩ := Gained.alloc_addr hin h.toOwned ht (afterBalloc_taken hsb ha hfree)
        (size_le hsb) hz
      rw [post_pure, hblock]
      refine ⟨⟨hgain, metadata_afterBalloc hsb ha h.metadata, fun b => marks_afterBalloc ha⟩, ?_,
        fun he => absurd he ha.pos⟩
      simp only [Dinode.setAddr, update_self]
  · exact ⟨.refl h, rfl, fun he => absurd he hz⟩

theorem bmapEntry_grows (hind : d.addrs indirect ≠ 0) {j : ℕ} (hj : j < NINDIRECT) :
    post (bmapEntry sb (d.addrs indirect) j) s (fun a s' => Grown sb inum s.block d s'.block d ∧
      slotAddr s'.block d (.entry ⟨j, hj⟩) = a ∧ (a = 0 → Full sb s'.block)) never := by
  have hslot : slotAddr s.block d (.entry ⟨j, hj⟩) = getLE (s.block (d.addrs indirect)) (4*j) 4 :=
    if_neg hind
  simp only [bmapEntry, bread, post_bind, post_get, post_pure]
  split_ifs with hz
  · apply post_bind_of (balloc_takes h.metadata)
    intro a s1 hcase
    rcases hcase with ⟨rfl, rfl, hfull⟩ | ⟨ha, hfree, hblock⟩
    · exact ⟨.refl h, hslot.trans hz, fun _ => hfull⟩
    · rw [if_neg ha.pos]
      obtain ⟨hgain, hslots⟩ := Gained.alloc_entry hin h.toOwned ht (afterBalloc_taken hsb ha hfree)
        (size_le hsb) (fun b hb n => data_ne_iblock hsb hb) hind hj (hslot.trans hz)
      have hdata : sb.IsData (d.addrs indirect) :=
        (h.toOwned.slot_used hin ht (s := .addr indirect) hind).1
      simp only [setData, logWrite, post_bind, post_get, post_modify, post_pure]
      rw [hblock]
      -- the indirect block is not part of the bitmap
      have hmarked (b : ℕ) (hb : b < sb.size) : marked sb (update
          (afterBalloc sb s.block a) (d.addrs indirect)
          (setLE (afterBalloc sb s.block a (d.addrs indirect)) (4*j) 4 a)) b =
          marked sb (afterBalloc sb s.block a) b := by
        rw [marked, marked, update_of_ne (data_ne_bblock hdata hb).symm]
      refine ⟨⟨?_, fun b hb => ?_, fun b hb hm => ?_⟩, ?_, fun he => absurd he ha.pos⟩
      · refine ⟨hgain.owned.congr (fun n hn htn => ⟨htn, fun _ => rfl⟩) hgain.owned.fits
          fun b hb hu => ?_, hgain.fields, hgain.keeps, hgain.leaves, hgain.disk, hgain.others⟩
        rw [hmarked b hb.2]
        exact hu
      · rw [hmarked b (Nat.lt_of_lt_of_le hb hsb.data)]
        exact metadata_afterBalloc hsb ha h.metadata b hb
      · rw [hmarked b hb]
        exact marks_afterBalloc ha hb hm
      · rw [hslots, if_pos rfl]
  · exact ⟨.refl h, hslot, fun he => absurd he hz⟩

theorem bmap_grows {bn : ℕ} (hbn : bn < MAXFILE) :
    post (bmap sb d bn) s (fun r s' => Grown sb inum s.block d s'.block r.2 ∧
      slotAddr s'.block r.2 (bnSlot bn) = r.1 ∧ (r.1 = 0 → Full sb s'.block)) never := by
  unfold bmap
  have hmax : MAXFILE = NDIRECT+NINDIRECT := rfl
  split_ifs with hdirect hlt
  · rw [bnSlot_direct hdirect]
    exact bmapSlot_grows hsb hin h ht _
  · apply post_bind_of (bmapSlot_grows hsb hin h ht indirect)
    rintro ⟨a, d1⟩ s1 ⟨hgrow, haddr, hfull⟩
    dsimp only at hgrow haddr hfull ⊢
    rw [bnSlot_entry hdirect hlt]
    split_ifs with hz
    · exact ⟨hgrow, if_pos (haddr.trans hz), fun _ => hfull hz⟩
    · have ht1 : d1.type ≠ 0 := by
        rw [hgrow.fields]
        exact ht
      rw [← haddr] at hz ⊢
      apply post_bind_of (bmapEntry_grows hsb hin hgrow.consistent ht1 hz hlt)
      rintro e s2 ⟨hgrow2, hslot, hfull2⟩
      exact ⟨hgrow.trans hgrow2, hslot, hfull2⟩
  · omega

end Growing
end Xv6.BlockFs
