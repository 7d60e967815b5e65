import Xv6.FsOwned

/-! Which blocks belong to which inodes, whatever says that a block is in use: bits in a bitmap, or
a counter. -/
namespace Xv6
open ByteFields Function

/-- Every block in a slot is in use and in one slot of one inode only. -/
structure Owned (sb : Superblock) (used : ℕ → Prop) (B : ℕ → Block) (I : ℕ → Dinode) : Prop
    extends Tame sb B I where
  used : ∀ n < sb.ninodes, (I n).type ≠ 0 → ∀ s, slotAddr B (I n) s ≠ 0 → used (slotAddr B (I n) s)
  once : ∀ n < sb.ninodes, ∀ n' < sb.ninodes, (I n).type ≠ 0 → (I n').type ≠ 0 → ∀ s s',
    slotAddr B (I n) s ≠ 0 → slotAddr B (I n) s = slotAddr B (I n') s' → n = n' ∧ s = s'

/-- Block `a`, which was free, is in use now and zero; nothing has happened to other data blocks and
to the inodes. -/
structure Taken (sb : Superblock) (used : ℕ → Prop) (B : ℕ → Block) (a : ℕ) (used' : ℕ → Prop)
    (B' : ℕ → Block) : Prop where
  data : sb.IsData a
  free : ¬used a
  zero : B' a = zeroBlock
  blocks : ∀ b, sb.IsData b → b ≠ a → B' b = B b
  inodes : ∀ n < sb.ninodes, dinodeOf sb B' n = dinodeOf sb B n
  used : ∀ b, sb.IsData b → used b ∨ b = a → used' b

section Slots
variable {sb : Superblock} {used used' : ℕ → Prop} {B B' : ℕ → Block} {I I' : ℕ → Dinode}
  {inum a : ℕ} {d : Dinode} {s : Slot}

theorem slotAddr_blocks (h : d.addrs indirect ≠ 0 → B' (d.addrs indirect) = B (d.addrs indirect)) :
    slotAddr B' d s = slotAddr B d s := by
  cases s with
  | addr k => rfl
  | entry j =>
    simp only [slotAddr]
    split_ifs with hz
    · rfl
    · rw [h hz]

theorem bnSlot_inj {bn bn' : ℕ} (hbn : bn < MAXFILE) (hbn' : bn' < MAXFILE)
    (h : bnSlot bn = bnSlot bn') : bn = bn' := by
  have hmax : MAXFILE = NDIRECT+NINDIRECT := rfl
  by_cases hd : bn < NDIRECT
  · by_cases hd' : bn' < NDIRECT
    · rw [bnSlot_direct hd, bnSlot_direct hd'] at h
      exact congrArg Fin.val (Slot.addr.inj h)
    · rw [bnSlot_direct hd, bnSlot_entry hd' (by omega)] at h
      cases h
  · by_cases hd' : bn' < NDIRECT
    · rw [bnSlot_entry hd (by omega), bnSlot_direct hd'] at h
      cases h
    · rw [bnSlot_entry hd (by omega), bnSlot_entry hd' (by omega)] at h
      have := congrArg Fin.val (Slot.entry.inj h)
      dsimp only at this
      omega

namespace Owned

variable (h : Owned sb used B I)
include h

theorem congr (hs : SameSlots sb B I B' I') (hf : ∀ n < sb.ninodes, (I' n).Fits)
    (hused : ∀ b, sb.IsData b → used b → used' b) : Owned sb used' B' I' := by
  refine ⟨h.toTame.congr hs hf, fun n hn ht s hz => ?_, fun n hn n' hn' ht ht' s s' hz he => ?_⟩
  · obtain ⟨htn, hsn⟩ := hs n hn ht
    rw [hsn s] at hz ⊢
    exact hused _ (h.ranged n hn htn s hz) (h.used n hn htn s hz)
  · obtain ⟨htn, hsn⟩ := hs n hn ht
    obtain ⟨htn', hsn'⟩ := hs n' hn' ht'
    rw [hsn s] at hz he
    rw [hsn' s'] at he
    exact h.once n hn n' hn' htn htn' s s' hz he

variable {n : ℕ}

theorem ne_taken (ha : Taken sb used B a used' B') (hn : n < sb.ninodes)
    (ht : (I n).type ≠ 0) (hz : slotAddr B (I n) s ≠ 0) : slotAddr B (I n) s ≠ a := by
  intro he
  have hu := h.used n hn ht s hz
  rw [he] at hu
  exact ha.free hu

theorem add (n0 : ℕ) (s0 : Slot) (ha : Taken sb used B a used' B') (hf : ∀ n < sb.ninodes, (I' n).Fits)
    {B'' : ℕ → Block}
    (hslots : ∀ n < sb.ninodes, (I' n).type ≠ 0 → (I n).type ≠ 0 ∧ ∀ s,
      slotAddr B'' (I' n) s = if n = n0 ∧ s = s0 then a else slotAddr B (I n) s) :
    Owned sb used' B'' I' := by
  refine ⟨⟨hf, fun n hn ht s hz => ?_⟩, fun n hn ht s hz => ?_,
    fun n hn n' hn' ht ht' s s' hz he => ?_⟩
  · obtain ⟨htn, hsn⟩ := hslots n hn ht
    rw [hsn s] at hz ⊢
    split_ifs at hz ⊢ with hc
    · exact ha.data
    · exact h.ranged n hn htn s hz
  · obtain ⟨htn, hsn⟩ := hslots n hn ht
    rw [hsn s] at hz ⊢
    split_ifs at hz ⊢ with hc
    · exact ha.used a ha.data (.inr rfl)
    · exact ha.used _ (h.ranged n hn htn s hz) (.inl (h.used n hn htn s hz))
  · obtain ⟨htn, hsn⟩ := hslots n hn ht
    obtain ⟨htn', hsn'⟩ := hslots n' hn' ht'
    rw [hsn s] at hz he
    rw [hsn' s'] at he
    split_ifs at hz he with hc hc' hc'
    · exact ⟨hc.1.trans hc'.1.symm, hc.2.trans hc'.2.symm⟩
    · exact absurd he.symm (h.ne_taken ha hn' htn' (by rw [← he]; exact hz))
    · exact absurd he (h.ne_taken ha hn htn hz)
    · exact h.once n hn n' hn' htn htn' s s' hz he

theorem block_taken (ha : Taken sb used B a used' B') (hn : n < sb.ninodes)
    (ht : (I n).type ≠ 0) (hz : slotAddr B (I n) s ≠ 0) :
    B' (slotAddr B (I n) s) = B (slotAddr B (I n) s) :=
  ha.blocks _ (h.ranged n hn ht s hz) (h.ne_taken ha hn ht hz)

theorem slotAddr_taken (ha : Taken sb used B a used' B') (hn : n < sb.ninodes)
    (ht : (I n).type ≠ 0) : slotAddr B' (I n) s = slotAddr B (I n) s :=
  slotAddr_blocks fun hz => h.block_taken (s := .addr indirect) ha hn ht hz

/-- The only slot of a block is not that of somebody else's indirect block. -/
theorem ne_indirect {n' : ℕ} (hn : n < sb.ninodes) (hn' : n' < sb.ninodes)
    (ht : (I n).type ≠ 0) (ht' : (I n').type ≠ 0) (hz : slotAddr B (I n) s ≠ 0)
    (hs : n' = n → s ≠ .addr indirect) : slotAddr B (I n) s ≠ (I n').addrs indirect := by
  intro he
  obtain ⟨rfl, hs'⟩ := h.once n hn n' hn' ht ht' s (.addr indirect) hz he
  exact hs rfl hs'

end Owned
end Slots

/-- What writing to inode `inum` does: it may get new blocks, in slots that were empty.  What the
inodes had before is theirs still, with the same contents. -/
structure Gained (sb : Superblock) (inum : ℕ) (B : ℕ → Block) (d : Dinode) (used' : ℕ → Prop)
    (B' : ℕ → Block) (d' : Dinode) : Prop where
  owned : Owned sb used' B' (flight sb B' inum d')
  fields : d' = { d with addrs := d'.addrs }
  keeps : ∀ s, slotAddr B d s ≠ 0 → slotAddr B' d' s = slotAddr B d s
  leaves : ∀ s, s ≠ .addr indirect → slotAddr B d s ≠ 0 → B' (slotAddr B d s) = B (slotAddr B d s)
  disk : ∀ n < sb.ninodes, dinodeOf sb B' n = dinodeOf sb B n
  others : ∀ n < sb.ninodes, n ≠ inum → (dinodeOf sb B n).type ≠ 0 → ∀ s,
    slotAddr B (dinodeOf sb B n) s ≠ 0 →
    B' (slotAddr B (dinodeOf sb B n) s) = B (slotAddr B (dinodeOf sb B n) s)

variable {n : ℕ}

section Growth
variable {sb : Superblock} {used used' used'' : ℕ → Prop} {B B' B'' : ℕ → Block} {inum a : ℕ}
  {d d' d'' : Dinode}

theorem Gained.refl (h : Owned sb used B (flight sb B inum d)) : Gained sb inum B d used B d :=
  ⟨h, rfl, fun _ _ => rfl, fun _ _ _ => rfl, fun _ _ => rfl, fun _ _ _ _ _ _ => rfl⟩

theorem Gained.other_slot (h : Gained sb inum B d used' B' d') (hn : n < sb.ninodes)
    (hne : n ≠ inum) (ht : (dinodeOf sb B n).type ≠ 0) (s : Slot) :
    slotAddr B' (dinodeOf sb B n) s = slotAddr B (dinodeOf sb B n) s :=
  slotAddr_blocks (h.others n hn hne ht (.addr indirect))

theorem Gained.trans (h : Gained sb inum B d used' B' d') (h' : Gained sb inum B' d' used'' B'' d'') :
    Gained sb inum B d used'' B'' d'' := by
  refine ⟨h'.owned, ?_, fun s hz => ?_, fun s hs hz => ?_, fun n hn => ?_,
    fun n hn hne ht s hz => ?_⟩
  · rw [h'.fields, h.fields]
  · have hs := h.keeps s hz
    rw [h'.keeps s (by rwa [hs]), hs]
  · have hk := h.keeps s hz
    have hl := h'.leaves s hs (by rwa [hk])
    rw [hk] at hl
    rw [hl, h.leaves s hs hz]
  · rw [h'.disk n hn, h.disk n hn]
  · have hk := h.other_slot hn hne ht s
    have hl := h'.others n hn hne (by rwa [h.disk n hn]) s (by rwa [h.disk n hn, hk])
    rw [h.disk n hn, hk] at hl
    rw [hl, h.others n hn hne ht s hz]

variable (hin : inum < sb.ninodes) (h : Owned sb used B (flight sb B inum d)) (ht : d.type ≠ 0)
include hin h ht

theorem Owned.slot_used {s : Slot} (hz : slotAddr B d s ≠ 0) :
    sb.IsData (slotAddr B d s) ∧ used (slotAddr B d s) := by
  have hself : flight sb B inum d inum = d := flight_self
  have hr := h.ranged inum hin (by rwa [hself]) s (by rwa [hself])
  have hu := h.used inum hin (by rwa [hself]) s (by rwa [hself])
  rw [hself] at hr hu
  exact ⟨hr, hu⟩

theorem Gained.of_taken (ha : Taken sb used B a used' B') : Gained sb inum B d used' B' d := by
  have hself : flight sb B inum d inum = d := flight_self
  have hsame (n : ℕ) (hn : n < sb.ninodes) : flight sb B' inum d n = flight sb B inum d n := by
    by_cases hne : n = inum
    · rw [hne, flight_self, flight_self]
    · rw [flight_other hne, flight_other hne, ha.inodes n hn]
  refine ⟨h.congr (fun n hn htn => ?_) (fun n hn => ?_) fun b hb hu => ha.used b hb (.inl hu), rfl,
    fun s hz => ?_, fun s _ hz => ?_, ha.inodes, fun n hn hne htn s hz => ?_⟩
  · rw [hsame n hn] at htn ⊢
    exact ⟨htn, fun s => h.slotAddr_taken ha hn htn⟩
  · rw [hsame n hn]
    exact h.fits n hn
  · have hk := h.slotAddr_taken (s := s) ha hin (by rwa [hself])
    rwa [hself] at hk
  · have hb := h.block_taken (s := s) ha hin (by rwa [hself]) (by rwa [hself])
    rwa [hself] at hb
  · have hother : flight sb B inum d n = dinodeOf sb B n := flight_other hne
    have hb := h.block_taken (s := s) ha hn (by rwa [hother]) (by rwa [hother])
    rwa [hother] at hb

theorem Gained.alloc_addr (ha : Taken sb used B a used' B') (hsize : sb.size ≤ 2^32)
    {k : Fin (NDIRECT+1)} (hk : d.addrs k = 0) :
    Gained sb inum B d used' B' (d.setAddr k a) ∧
      ∀ s, slotAddr B' (d.setAddr k a) s = if s = .addr k then a else slotAddr B d s := by
  have hself : flight sb B inum d inum = d := flight_self
  have hother (n : ℕ) (hn : n < sb.ninodes) (hne : n ≠ inum) :
      flight sb B' inum (d.setAddr k a) n = flight sb B inum d n := by
    rw [flight_other hne, flight_other hne, ha.inodes n hn]
  have hslots (s : Slot) :
      slotAddr B' (d.setAddr k a) s = if s = .addr k then a else slotAddr B d s := by
    have hsame := h.slotAddr_taken (s := s) ha hin (by rwa [hself])
    rw [hself] at hsame
    by_cases hki : k = indirect
    · subst hki
      rw [slotAddr_setAddr_indirect hk ha.zero, hsame]
    · rw [slotAddr_setAddr_direct hki, hsame]
  have hgain := Gained.of_taken hin h ht ha
  refine ⟨⟨h.add inum (.addr k) ha (fun n hn => ?_) fun n hn htn => ?_, rfl, fun s hz => ?_,
    hgain.leaves, ha.inodes, hgain.others⟩, hslots⟩
  · by_cases hne : n = inum
    · have hfits := h.fits inum hin
      rw [hself] at hfits
      rw [hne, flight_self]
      exact hfits.setAddr (Nat.lt_of_lt_of_le ha.data.2 hsize)
    · rw [hother n hn hne]
      exact h.fits n hn
  · by_cases hne : n = inum
    · subst hne
      rw [flight_self, flight_self]
      refine ⟨ht, fun s => ?_⟩
      rw [hslots s]
      simp
    · rw [hother n hn hne] at htn ⊢
      refine ⟨htn, fun s => ?_⟩
      rw [h.slotAddr_taken ha hn htn, if_neg fun hc => hne hc.1]
  · rw [hslots s, if_neg]
    rintro rfl
    exact hz hk

theorem Gained.alloc_entry (ha : Taken sb used B a used' B') (hsize : sb.size ≤ 2^32)
    (hiblock : ∀ b, sb.IsData b → ∀ n < sb.ninodes, b ≠ sb.iblock n)
    (hind : d.addrs indirect ≠ 0) {j : ℕ} (hj : j < NINDIRECT)
    (hz : slotAddr B d (.entry ⟨j, hj⟩) = 0) :
    Gained sb inum B d used' (update B' (d.addrs indirect)
      (setLE (B' (d.addrs indirect)) (4*j) 4 a)) d ∧
    ∀ s, slotAddr (update B' (d.addrs indirect) (setLE (B' (d.addrs indirect)) (4*j) 4 a)) d s =
        if s = .entry ⟨j, hj⟩ then a else slotAddr B d s := by
  have hself : flight sb B inum d inum = d := flight_self
  have hdata := (h.slot_used hin ht (s := .addr indirect) hind).1
  change sb.IsData (d.addrs indirect) at hdata
  have hsame (n : ℕ) (hn : n < sb.ninodes) : flight sb (update B' (d.addrs indirect)
      (setLE (B' (d.addrs indirect)) (4*j) 4 a)) inum d n = flight sb B inum d n := by
    rw [flight_update (hiblock _ hdata n hn)]
    by_cases hne : n = inum
    · rw [hne, flight_self, flight_self]
    · rw [flight_other hne, flight_other hne, ha.inodes n hn]
  -- the indirect block is in no other slot
  have hnot (n : ℕ) (hn : n < sb.ninodes) (htn : (flight sb B inum d n).type ≠ 0) (s : Slot)
      (hs : n = inum → s ≠ .addr indirect) (hzs : slotAddr B (flight sb B inum d n) s ≠ 0) :
      slotAddr B (flight sb B inum d n) s ≠ d.addrs indirect := by
    have hne := h.ne_indirect hn hin htn (by rwa [hself]) hzs fun he => hs he.symm
    rwa [hself] at hne
  have hslots (s : Slot) : slotAddr (update B' (d.addrs indirect)
      (setLE (B' (d.addrs indirect)) (4*j) 4 a)) d s =
        if s = .entry ⟨j, hj⟩ then a else slotAddr B d s := by
    have hk := h.slotAddr_taken (s := s) ha hin (by rwa [hself])
    rw [hself] at hk
    rw [slotAddr_setEntry hj hind (Nat.lt_of_lt_of_le ha.data.2 hsize), hk]
  refine ⟨⟨h.add inum (.entry ⟨j, hj⟩) ha (fun n hn => ?_) fun n hn htn => ?_, rfl, fun s hzs => ?_,
    fun s hs hzs => ?_, fun n hn => ?_, fun n hn hne htn s hzs => ?_⟩, hslots⟩
  · rw [hsame n hn]
    exact h.fits n hn
  · rw [hsame n hn] at htn ⊢
    refine ⟨htn, fun s => ?_⟩
    by_cases hne : n = inum
    · subst hne
      rw [hself, hslots s]
      simp
    · rw [slotAddr_update fun hzi => (hnot n hn htn (.addr indirect) (fun he => absurd he hne) hzi).symm,
        h.slotAddr_taken ha hn htn, if_neg fun hc => hne hc.1]
  · rw [hslots s, if_neg]
    rintro rfl
    exact hzs hz
  · have hne := hnot inum hin (by rwa [hself]) s (fun _ => hs) (by rwa [hself])
    have hb := h.block_taken (s := s) ha hin (by rwa [hself]) (by rwa [hself])
    rw [hself] at hne hb
    rw [update_of_ne hne, hb]
  · rw [dinodeOf_update (hiblock _ hdata n hn), ha.inodes n hn]
  · have hother : flight sb B inum d n = dinodeOf sb B n := flight_other hne
    have hnind := hnot n hn (by rwa [hother]) s (fun he => absurd he hne) (by rwa [hother])
    have hb := h.block_taken (s := s) ha hn (by rwa [hother]) (by rwa [hother])
    rw [hother] at hnind hb
    rw [update_of_ne hnind, hb]

end Growth

/-! ## Writing to a block of a file -/

section Leaves
variable {sb : Superblock} {used : ℕ → Prop} {B B' : ℕ → Block} {inum : ℕ} {d d' : Dinode}
  {s0 s : Slot}

variable (hin : inum < sb.ninodes) (h : Owned sb used B (flight sb B inum d)) (ht : d.type ≠ 0)
  (hs0 : s0 ≠ .addr indirect) (hz : slotAddr B d s0 ≠ 0)
include hin h ht hs0 hz

theorem Owned.leaf_ne_indirect (hn : n < sb.ninodes) (htn : (flight sb B inum d n).type ≠ 0) :
    slotAddr B d s0 ≠ (flight sb B inum d n).addrs indirect := by
  have hself : flight sb B inum d inum = d := flight_self
  have hne := h.ne_indirect hin hn (by rwa [hself]) htn (s := s0) (by rwa [hself]) fun _ => hs0
  rwa [hself] at hne

theorem Owned.slotAddr_leaf (v : Block) :
    slotAddr (update B (slotAddr B d s0) v) d s = slotAddr B d s := by
  have hself : flight sb B inum d inum = d := flight_self
  have hne := h.leaf_ne_indirect hin ht hs0 hz hin (by rwa [hself])
  rw [hself] at hne
  exact slotAddr_update fun _ => hne

omit hs0 hz in
theorem Owned.leaf_ne (hs : s ≠ s0) (hzs : slotAddr B d s ≠ 0) :
    slotAddr B d s ≠ slotAddr B d s0 := by
  have hself : flight sb B inum d inum = d := flight_self
  intro he
  have hsame := h.once inum hin inum hin (by rwa [hself]) (by rwa [hself]) s s0
    (by rwa [hself]) (by rwa [hself])
  exact hs hsame.2

omit hs0 hz in
theorem Owned.leaf_ne_other (s0 : Slot) (hn : n < sb.ninodes) (hne : n ≠ inum)
    (htn : (dinodeOf sb B n).type ≠ 0) (hzs : slotAddr B (dinodeOf sb B n) s ≠ 0) :
    slotAddr B (dinodeOf sb B n) s ≠ slotAddr B d s0 := by
  have hself : flight sb B inum d inum = d := flight_self
  have hother : flight sb B inum d n = dinodeOf sb B n := flight_other hne
  intro he
  have hsame := h.once n hn inum hin (by rwa [hother]) (by rwa [hself]) s s0
    (by rwa [hother]) (by rwa [hother, hself])
  exact hne hsame.1

theorem Owned.write_leaf (hiblock : ∀ b, sb.IsData b → ∀ n < sb.ninodes, b ≠ sb.iblock n)
    (v : Block) : Owned sb used (update B (slotAddr B d s0) v)
      (flight sb (update B (slotAddr B d s0) v) inum d) := by
  have hdata := (h.slot_used hin ht hz).1
  have hsame (n : ℕ) (hn : n < sb.ninodes) :
      flight sb (update B (slotAddr B d s0) v) inum d n = flight sb B inum d n :=
    flight_update (hiblock _ hdata n hn)
  refine h.congr (fun n hn htn => ?_) (fun n hn => ?_) fun _ _ hu => hu
  · rw [hsame n hn] at htn ⊢
    exact ⟨htn, fun s => slotAddr_update fun _ => h.leaf_ne_indirect hin ht hs0 hz hn htn⟩
  · rw [hsame n hn]
    exact h.fits n hn

end Leaves

section Update
variable {sb : Superblock} {used : ℕ → Prop} {B : ℕ → Block} {inum : ℕ} {d d' : Dinode}

theorem Owned.set_fields (h : Owned sb used B (flight sb B inum d)) (hf : d'.Fits)
    (haddrs : d'.addrs = d.addrs) (htype : d'.type ≠ 0 → d.type ≠ 0) :
    Owned sb used B (flight sb B inum d') := by
  refine h.congr (fun n hn ht => ?_) (fun n hn => ?_) fun _ _ hu => hu
  · by_cases hne : n = inum
    · subst hne
      rw [flight_self] at ht ⊢
      rw [flight_self]
      exact ⟨htype ht, fun s => slotAddr_congr haddrs⟩
    · rw [flight_other hne] at ht ⊢
      rw [flight_other hne]
      exact ⟨ht, fun _ => rfl⟩
  · by_cases hne : n = inum
    · rw [hne, flight_self]
      exact hf
    · rw [flight_other hne]
      exact getDinode_fits _ _

variable (hin : inum < sb.ninodes) (h : Owned sb used B (flight sb B inum d))
  (hiblock : ∀ b, sb.IsData b → ∀ n < sb.ninodes, b ≠ sb.iblock n)
include hin h hiblock

/-- The blocks of the inodes are not those in which inodes are kept. -/
theorem Owned.block_iupdated (hn : n < sb.ninodes) (ht : (flight sb B inum d n).type ≠ 0)
    {s : Slot} (hz : slotAddr B (flight sb B inum d n) s ≠ 0) :
    iupdated sb B inum d (slotAddr B (flight sb B inum d n) s) =
      B (slotAddr B (flight sb B inum d n) s) := by
  rw [iupdated, update_of_ne (hiblock _ (h.ranged n hn ht s hz) inum hin)]

theorem Owned.slotAddr_iupdated (hn : n < sb.ninodes)
    (ht : (flight sb B inum d n).type ≠ 0) (s : Slot) :
    slotAddr (iupdated sb B inum d) (flight sb B inum d n) s =
      slotAddr B (flight sb B inum d n) s :=
  slotAddr_blocks fun hz => h.block_iupdated hin hiblock hn ht (s := .addr indirect) hz

theorem Owned.iupdate :
    Owned sb used (iupdated sb B inum d) (dinodeOf sb (iupdated sb B inum d)) := by
  have hfits := h.fits inum hin
  rw [flight_self] at hfits
  refine h.congr (fun n hn ht => ?_) (fun _ _ => getDinode_fits _ _) fun _ _ hu => hu
  rw [dinodeOf_iupdated hfits] at ht ⊢
  exact ⟨ht, h.slotAddr_iupdated hin hiblock hn ht⟩

end Update
end Xv6
