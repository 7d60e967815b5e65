import Xv6.BlockOwners

/-! A file is written from an offset on, one piece of a block after the other, with new blocks in
between. The bytes up to there are the new ones, and nothing happens to other files. -/
namespace Xv6
open ByteFields Function

variable {sb : Superblock} {used used' : ℕ → Prop} {inum base t : ℕ} {bytes : ℕ → UInt8}
  {B₀ B B' : ℕ → Block} {d₀ d d' : Dinode}

/-- The first `t` of `bytes` have been written at offset `base` of inode `inum`, which was `d₀` on a
disk with the blocks `B₀`. -/
structure WroteBytes (sb : Superblock) (inum : ℕ) (bytes : ℕ → UInt8) (base : ℕ) (B₀ : ℕ → Block)
    (d₀ : Dinode) (t : ℕ) (used : ℕ → Prop) (B : ℕ → Block) (d : Dinode) : Prop where
  owned : Owned sb used B (flight sb B inum d)
  fields : d = { d₀ with addrs := d.addrs }
  mapped : ∀ bn, bn*BSIZE < max d₀.size (base+t) → slotAddr B d (bnSlot bn) ≠ 0
  contents : ∀ x < max d₀.size (base+t), fileByte B d x =
    if base ≤ x ∧ x < base+t then bytes (x-base) else fileByte B₀ d₀ x
  disk : ∀ n < sb.ninodes, dinodeOf sb B n = dinodeOf sb B₀ n
  others : ∀ n < sb.ninodes, n ≠ inum → (dinodeOf sb B₀ n).type ≠ 0 → ∀ s,
    slotAddr B₀ (dinodeOf sb B₀ n) s ≠ 0 →
    B (slotAddr B₀ (dinodeOf sb B₀ n) s) = B₀ (slotAddr B₀ (dinodeOf sb B₀ n) s)

namespace WroteBytes

theorem start (h : Owned sb used B₀ (flight sb B₀ inum d₀)) (hbase : base ≤ d₀.size)
    (hfull : ∀ bn, bn*BSIZE < d₀.size → slotAddr B₀ d₀ (bnSlot bn) ≠ 0) :
    WroteBytes sb inum bytes base B₀ d₀ 0 used B₀ d₀ := by
  have hmax : max d₀.size (base+0) = d₀.size := by omega
  refine ⟨h, rfl, ?_, ?_, fun _ _ => rfl, fun _ _ _ _ _ _ => rfl⟩
  · rw [hmax]
    exact hfull
  · intro x _
    rw [if_neg (by omega)]

theorem other_slot (h : WroteBytes sb inum bytes base B₀ d₀ t used B d) {n : ℕ} (hn : n < sb.ninodes)
    (hne : n ≠ inum) (ht : (dinodeOf sb B₀ n).type ≠ 0) (s : Slot) :
    slotAddr B (dinodeOf sb B₀ n) s = slotAddr B₀ (dinodeOf sb B₀ n) s :=
  slotAddr_blocks (h.others n hn hne ht (.addr indirect))

theorem gained (h : WroteBytes sb inum bytes base B₀ d₀ t used B d) (hg : Gained sb inum B d used' B' d') :
    WroteBytes sb inum bytes base B₀ d₀ t used' B' d' := by
  refine ⟨hg.owned, ?_, fun bn hbn => ?_, fun x hx => ?_, fun n hn => ?_,
    fun n hn hne ht s hz => ?_⟩
  · rw [hg.fields, h.fields]
  · have hz := h.mapped bn hbn
    rw [hg.keeps _ hz]
    exact hz
  · have hz := h.mapped (x/BSIZE) (Nat.lt_of_le_of_lt (Nat.div_mul_le_self x BSIZE) hx)
    rw [← h.contents x hx, fileByte, fileByte, hg.keeps _ hz, hg.leaves _ (bnSlot_ne_indirect _) hz]
  · rw [hg.disk n hn, h.disk n hn]
  · have hslot := h.other_slot hn hne ht s
    have hother := hg.others n hn hne (by rwa [h.disk n hn]) s (by rwa [h.disk n hn, hslot])
    rw [h.disk n hn, hslot] at hother
    rw [hother, h.others n hn hne ht s hz]

theorem piece (hin : inum < sb.ninodes) (ht : d₀.type ≠ 0)
    (hiblock : ∀ b, sb.IsData b → ∀ n < sb.ninodes, b ≠ sb.iblock n)
    (h : WroteBytes sb inum bytes base B₀ d₀ t used B d)
    (hz : slotAddr B d (bnSlot ((base+t)/BSIZE)) ≠ 0) {k : ℕ} (hpos : 0 < k)
    (hk : (base+t) % BSIZE+k ≤ BSIZE)
    (hmax : max d₀.size (base+(t+k)) ≤ MAXFILE*BSIZE) :
    WroteBytes sb inum bytes base B₀ d₀ (t+k) used (update B
      (slotAddr B d (bnSlot ((base+t)/BSIZE))) (splice (B (slotAddr B d (bnSlot ((base+t)/BSIZE))))
        ((base+t) % BSIZE) k fun i => bytes (t+i))) d := by
  have htype : d.type ≠ 0 := by
    rw [h.fields]
    exact ht
  have hleaf := bnSlot_ne_indirect ((base+t)/BSIZE)
  have hdata := (h.owned.slot_used hin htype hz).1
  obtain ⟨v, hv⟩ : ∃ v, v = splice (B (slotAddr B d (bnSlot ((base+t)/BSIZE))))
    ((base+t) % BSIZE) k fun i => bytes (t+i) := ⟨_, rfl⟩
  rw [← hv]
  have hslot (s : Slot) : slotAddr (update B (slotAddr B d (bnSlot ((base+t)/BSIZE))) v) d s
      = slotAddr B d s := h.owned.slotAddr_leaf hin htype hleaf hz v
  -- what has a block now: what had one before, and the block that is written
  have hmapped (bn : ℕ) (hbn : bn*BSIZE < max d₀.size (base+(t+k))) :
      slotAddr B d (bnSlot bn) ≠ 0 := by
    by_cases hq : bn = (base+t)/BSIZE
    · rw [hq]
      exact hz
    · refine h.mapped bn ?_
      rw [BSIZE] at hbn hk hq ⊢
      omega
  refine ⟨h.owned.write_leaf hin htype hleaf hz hiblock v, h.fields, fun bn hbn => ?_,
    fun x hx => ?_, fun n hn => ?_, fun n hn hne htn s hzs => ?_⟩
  · rw [hslot]
    exact hmapped bn hbn
  · rw [fileByte, hslot]
    by_cases hq : x/BSIZE = (base+t)/BSIZE
    · rw [hq, update_self, hv]
      by_cases hnew : base+t ≤ x ∧ x < base+(t+k)
      · -- a byte of the piece
        rw [get8_splice_inside _ _ _ _ _ (Nat.mod_lt _ (by decide))
          (by rw [BSIZE] at hq hk ⊢; omega) (by rw [BSIZE] at hq hk ⊢; omega), if_pos (by omega)]
        congr 1
        rw [BSIZE] at hq hk ⊢
        omega
      · rw [get8_splice_outside _ _ _ _ _ (by rw [BSIZE] at hq hk ⊢; omega)]
        by_cases hold : x < max d₀.size (base+t)
        · have hc := h.contents x hold
          rw [fileByte, hq] at hc
          rw [hc]
          split_ifs <;> first | rfl | omega
        · exfalso
          omega
    · have hzx := hmapped (x/BSIZE) (Nat.lt_of_le_of_lt (Nat.div_mul_le_self x BSIZE) hx)
      have hne : bnSlot (x/BSIZE) ≠ bnSlot ((base+t)/BSIZE) := by
        intro he
        exact hq (bnSlot_inj (block_lt_maxfile (by omega)) (block_lt_maxfile (by omega)) he)
      rw [update_of_ne (h.owned.leaf_ne hin htype hne hzx)]
      have hc := h.contents x (by rw [BSIZE] at hq hk; omega)
      rw [fileByte] at hc
      rw [hc]
      split_ifs <;> first | rfl | (rw [BSIZE] at hq hk; omega)
  · rw [dinodeOf_update (hiblock _ hdata n hn), h.disk n hn]
  · have hslot' := h.other_slot hn hne htn s
    have hother := h.owned.leaf_ne_other (s := s) hin htype (bnSlot ((base+t)/BSIZE)) hn hne
      (by rwa [h.disk n hn]) (by rwa [h.disk n hn, hslot'])
    rw [h.disk n hn, hslot'] at hother
    rw [update_of_ne hother, h.others n hn hne htn s hzs]

end WroteBytes

/-- Nothing has happened to the inode: it is the same on the disk, and so are its blocks. -/
def Untouched (sb : Superblock) (B B' : ℕ → Block) (n : ℕ) : Prop :=
  dinodeOf sb B' n = dinodeOf sb B n ∧ ∀ s, slotAddr B (dinodeOf sb B n) s ≠ 0 →
    slotAddr B' (dinodeOf sb B n) s = slotAddr B (dinodeOf sb B n) s ∧
    B' (slotAddr B (dinodeOf sb B n) s) = B (slotAddr B (dinodeOf sb B n) s)

/-- The inode has been written back as `d'`, with the blocks that it had in memory as `d`. -/
structure StoredBytes (sb : Superblock) (inum : ℕ) (bytes : ℕ → UInt8) (base : ℕ) (B₀ : ℕ → Block)
    (d₀ : Dinode) (t : ℕ) (used : ℕ → Prop) (B : ℕ → Block) (d : Dinode) (B' : ℕ → Block)
    (d' : Dinode) : Prop where
  owned : Owned sb used B' (dinodeOf sb B')
  stored : dinodeOf sb B' inum = d'
  slots : ∀ s, slotAddr B' d' s = slotAddr B d s
  contents : ∀ x < max d₀.size (base+t), fileByte B' d' x =
    if base ≤ x ∧ x < base+t then bytes (x-base) else fileByte B₀ d₀ x
  others : ∀ n < sb.ninodes, n ≠ inum → (dinodeOf sb B₀ n).type ≠ 0 → Untouched sb B₀ B' n

theorem WroteBytes.iupdate (hin : inum < sb.ninodes) (ht : d₀.type ≠ 0)
    (hiblock : ∀ b, sb.IsData b → ∀ n < sb.ninodes, b ≠ sb.iblock n)
    (h : WroteBytes sb inum bytes base B₀ d₀ t used B d) (hfits : d'.Fits) (htype : d'.type ≠ 0)
    (haddrs : d'.addrs = d.addrs) :
    StoredBytes sb inum bytes base B₀ d₀ t used B d (iupdated sb B inum d') d' := by
  have howned : Owned sb used B (flight sb B inum d') := by
    refine h.owned.set_fields hfits haddrs fun _ => ?_
    rw [h.fields]
    exact ht
  have hself : flight sb B inum d' inum = d' := flight_self
  have hslot (s : Slot) : slotAddr (iupdated sb B inum d') d' s = slotAddr B d s := by
    have hs := howned.slotAddr_iupdated hin hiblock hin (by rwa [hself]) s
    rw [hself] at hs
    rw [hs]
    exact slotAddr_congr haddrs
  refine ⟨howned.iupdate hin hiblock, ?_, hslot, fun x hx => ?_,
    fun n hn hne htn => ⟨?_, fun s hz => ?_⟩⟩
  · rw [dinodeOf_iupdated hfits, hself]
  · have hz := h.mapped (x/BSIZE) (Nat.lt_of_le_of_lt (Nat.div_mul_le_self x BSIZE) hx)
    have hb := howned.block_iupdated hin hiblock hin (by rwa [hself]) (s := bnSlot (x/BSIZE))
      (by rwa [hself, slotAddr_congr haddrs])
    rw [hself, slotAddr_congr haddrs] at hb
    rw [← h.contents x hx, fileByte, fileByte, hslot, hb]
  · rw [dinodeOf_iupdated hfits, flight_other hne, h.disk n hn]
  · have hother : flight sb B inum d' n = dinodeOf sb B₀ n := by
      rw [flight_other hne, h.disk n hn]
    have hs := howned.slotAddr_iupdated hin hiblock hn (by rwa [hother]) s
    rw [hother, h.other_slot hn hne htn s] at hs
    have hb := howned.block_iupdated hin hiblock hn (by rwa [hother]) (s := s)
      (by rwa [hother, h.other_slot hn hne htn s])
    rw [hother, h.other_slot hn hne htn s] at hb
    exact ⟨hs, hb.trans (h.others n hn hne htn s hz)⟩

end Xv6
