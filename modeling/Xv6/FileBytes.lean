import Xv6.BlockGrowth
import Xv6.FileWrites

/-! `writei` replaces a range of the bytes of a file and `readi` gets them back. -/
namespace Xv6.BlockFs
open ByteFields StateOutcome Function

/-! ## Copies that succeed -/

def byteOf (src : Src) (k : ℕ) : UInt8 :=
  match src with
  | .kernel bytes => bytes k
  | .user u addr => (u ((addr+k)/PGSIZE)).elim 0 fun page => get8 page ((addr+k) % PGSIZE)

/-- The first `n` bytes of the source can be copied. -/
def Gives (src : Src) (n : ℕ) : Prop :=
  match src with
  | .kernel _ => True
  | .user u addr => addr+n ≤ 2^64 ∧ ∀ k < n, (u ((addr+k)/PGSIZE)).isSome

theorem splice_append (b : Block) (off k len : ℕ) (f : ℕ → UInt8) :
    splice (splice b off k f) (off+k) len (fun i => f (k+i)) = splice b off (k+len) f := by
  funext j
  simp only [splice]
  by_cases hlo : off+k ≤ j.val ∧ j.val < off+k+len
  · rw [if_pos hlo, if_pos (by omega)]
    congr 1
    omega
  · rw [if_neg hlo]
    by_cases hin : off ≤ j.val ∧ j.val < off+k
    · rw [if_pos hin, if_pos (by omega)]
    · rw [if_neg hin, if_neg (by omega)]

variable {f g : ℕ → UInt8} {k n off : ℕ}

theorem splice_congr (b : Block) (off len : ℕ) (h : ∀ k < len, f k = g k) :
    splice b off len f = splice b off len g := by
  funext j
  simp only [splice]
  by_cases hin : off ≤ j.val ∧ j.val < off+len
  · rw [if_pos hin, if_pos hin]
    exact h _ (by omega)
  · rw [if_neg hin, if_neg hin]

theorem splice_zero (b : Block) (off : ℕ) (f : ℕ → UInt8) : splice b off 0 f = b := by
  funext j
  rw [splice, if_neg (by omega)]

theorem copyinPages_gives (u : UserMem) (fuel : ℕ) (dst : Block) (off va len : ℕ)
    (hfuel : len ≤ fuel) (h : ∀ k < len, (u ((va+k)/PGSIZE)).isSome) :
    copyinPages u fuel dst off va len = (splice dst off len fun k => byteOf (.user u va) k, true) := by
  induction fuel generalizing dst off va len with
  | zero =>
    obtain rfl : len = 0 := by omega
    rw [copyinPages, splice_zero]
  | succ fuel ih =>
    unfold copyinPages
    by_cases hlen : len = 0
    · rw [if_pos hlen, hlen, splice_zero]
    rw [if_neg hlen]
    obtain ⟨page, hpage⟩ := Option.isSome_iff_exists.mp (h 0 (by omega))
    rw [Nat.add_zero] at hpage
    rw [hpage]
    dsimp only
    obtain ⟨k, hk⟩ : ∃ k, k = min (PGSIZE-va % PGSIZE) len := ⟨_, rfl⟩
    have hmod : va % PGSIZE < PGSIZE := Nat.mod_lt _ (by decide)
    rw [← hk, ih _ _ (va+k) (len-k) (by omega) fun i hi => by
      rw [Nat.add_assoc]
      exact h (k+i) (by omega)]
    -- the first piece is in one page
    have hfirst : ∀ i < k, get8 page (va % PGSIZE+i) = byteOf (.user u va) i := by
      intro i hi
      have hdiv : (va+i)/PGSIZE = va/PGSIZE := by
        rw [PGSIZE] at hk hmod ⊢
        omega
      have hmod' : (va+i) % PGSIZE = va % PGSIZE+i := by
        rw [PGSIZE] at hk hmod ⊢
        omega
      rw [byteOf, hdiv, hpage, hmod']
      rfl
    have hrest (i : ℕ) : byteOf (.user u (va+k)) i = byteOf (.user u va) (k+i) := by
      rw [byteOf, byteOf, Nat.add_assoc]
    have hlen' : len = k+(len-k) := by omega
    rw [splice_congr dst off k hfirst]
    simp only [hrest]
    rw [splice_append, ← hlen']

theorem eitherCopyin_gives {src : Src} {tot : ℕ} (h : Gives src n) (hk : tot+k ≤ n) (dst : Block)
    (off : ℕ) : eitherCopyin src dst off tot k = (splice dst off k fun i => byteOf src (tot+i), true) := by
  cases src with
  | kernel bytes => rfl
  | user u addr =>
    by_cases hzero : k = 0
    · rw [hzero, splice_zero, eitherCopyin, copyinPages]
    have hwrap : (addr+tot) % 2^64 = addr+tot := Nat.mod_eq_of_lt (by have := h.1; omega)
    rw [eitherCopyin, hwrap, copyinPages_gives u k dst off (addr+tot) k le_rfl fun i hi => by
      rw [Nat.add_assoc]
      exact h.2 (tot+i) (by omega)]
    simp only [byteOf, Nat.add_assoc]

/-! ## `writei` -/

section Writing
variable {sb : Superblock} {s : Store} {inum base : ℕ} {src : Src} {B0 : ℕ → Block} {d0 d : Dinode}

/-- The loop of `writei` at offset `base+tot`; the bytes before are written. -/
theorem writeLoop_writes (hsb : sb.Ok) (hin : inum < sb.ninodes) (ht : d0.type ≠ 0)
    (hsize : d0.size ≤ MAXFILE*BSIZE) (hsrc : Gives src n) (hend : base+n ≤ MAXFILE*BSIZE)
    (fuel : ℕ) {tot : ℕ} (htot : tot ≤ n) (hfuel : n ≤ tot+fuel)
    (hmeta : ∀ b < sb.dataStart, marked sb s.block b = true)
    (hmarks : ∀ b < sb.size, marked sb B0 b = true → marked sb s.block b = true)
    (h : WroteBytes sb inum (byteOf src) base B0 d0 tot (marked sb s.block · = true) s.block d) :
    post (writeLoop sb src fuel d tot (base+tot) n) s (fun r s' => r.1 ≤ n ∧ r.2.1 = base+r.1 ∧
      (r.1 < n → Full sb s'.block) ∧ (∀ b < sb.dataStart, marked sb s'.block b = true) ∧
      (∀ b < sb.size, marked sb B0 b = true → marked sb s'.block b = true) ∧
      WroteBytes sb inum (byteOf src) base B0 d0 r.1 (marked sb s'.block · = true) s'.block r.2.2)
      never := by
  induction fuel generalizing s d tot with
  | zero =>
    obtain rfl : tot = n := by omega
    exact ⟨le_rfl, rfl, fun hlt => absurd hlt (Nat.lt_irrefl _), hmeta, hmarks, h⟩
  | succ fuel ih =>
    unfold writeLoop
    by_cases hlt : tot < n
    swap
    · rw [if_neg hlt]
      exact ⟨htot, rfl, fun hlt' => absurd hlt' hlt, hmeta, hmarks, h⟩
    rw [if_pos hlt]
    have htype : d.type ≠ 0 := by
      rw [h.fields]
      exact ht
    apply post_bind_of (bmap_grows hsb hin ⟨h.owned, hmeta⟩ htype (block_lt_maxfile (by omega)))
    rintro ⟨a, d1⟩ s1 ⟨hgrow, hslot, hfull⟩
    dsimp only at hgrow hslot hfull ⊢
    have h1 := h.gained hgrow.toGained
    split_ifs with hz
    · exact ⟨htot, rfl, fun _ => hfull hz, hgrow.metadata,
        fun b hb hm => hgrow.marks b hb (hmarks b hb hm), h1⟩
    simp only [bread, post_bind, post_get, post_pure]
    obtain ⟨k, hk⟩ : ∃ k, k = min (n-tot) (BSIZE-(base+tot) % BSIZE) := ⟨_, rfl⟩
    have hmod : (base+tot) % BSIZE < BSIZE := Nat.mod_lt _ (by decide)
    rw [← hk, eitherCopyin_gives hsrc (by omega)]
    rw [Nat.add_assoc]
    subst hslot
    have htype1 : d1.type ≠ 0 := by
      rw [h1.fields]
      exact ht
    have hdata : sb.IsData _ := (h1.owned.slot_used hin htype1 hz).1
    have hpiece := h1.piece hin ht (fun b hb n => data_ne_iblock hsb hb) hz (k := k) (by omega)
      (by omega) (by omega)
    -- the piece is not written to the bitmap
    have hmarked (b : ℕ) (hb : b < sb.size) : marked sb (update s1.block
        (slotAddr s1.block d1 (bnSlot ((base+tot)/BSIZE))) (splice (s1.block (slotAddr s1.block d1
          (bnSlot ((base+tot)/BSIZE)))) ((base+tot) % BSIZE) k fun i => byteOf src (tot+i))) b =
        marked sb s1.block b := by
      rw [marked, marked, update_of_ne (data_ne_bblock hdata hb).symm]
    refine ih (by omega) (by omega) (fun b hb => ?_) (fun b hb hm => ?_) ⟨hpiece.owned.congr
      (fun n hn htn => ⟨htn, fun _ => rfl⟩) hpiece.owned.fits fun b hb hu => ?_, hpiece.fields,
      hpiece.mapped, hpiece.contents, hpiece.disk, hpiece.others⟩
    · rw [hmarked b (Nat.lt_of_lt_of_le hb hsb.data)]
      exact hgrow.metadata b hb
    · rw [hmarked b hb]
      exact hgrow.marks b hb (hmarks b hb hm)
    · rw [hmarked b hb.2]
      exact hu

end Writing

/-! ## The list of bytes -/

def contents (B : ℕ → Block) (d : Dinode) : List UInt8 := (List.range d.size).map (fileByte B d)

theorem range_replaced {size : ℕ} (hoff : off ≤ size) {bytes : ℕ → UInt8}
    (h : ∀ x < max size (off+k), g x = if off ≤ x ∧ x < off+k then bytes (x-off) else f x) :
    (List.range (max size (off+k))).map g = ((List.range size).map f).take off++
      (List.range k).map bytes++((List.range size).map f).drop (off+k) := by
  apply List.ext_getElem
  · simp only [List.length_map, List.length_range, List.length_append, List.length_take,
      List.length_drop]
    omega
  · intro x hx _
    rw [List.length_map, List.length_range] at hx
    rw [List.getElem_map, List.getElem_range, h x hx]
    -- before the range, in it and behind it
    by_cases hbefore : x < off
    · rw [if_neg (by omega), List.getElem_append_left (by simp; omega),
        List.getElem_append_left (by simp; omega)]
      simp
    · by_cases hinside : x < off+k
      · rw [if_pos (by omega), List.getElem_append_left (by simp; omega),
          List.getElem_append_right (by simp; omega)]
        simp only [List.getElem_map, List.getElem_range, List.length_take, List.length_map,
          List.length_range]
        congr 1
        omega
      · rw [if_neg (by omega), List.getElem_append_right (by simp; omega)]
        simp only [List.getElem_drop, List.getElem_map, List.getElem_range, List.length_append,
          List.length_take, List.length_map, List.length_range]
        congr 1
        omega

/-- The bytes that a read gives: those from `off` on that the file has, and none beyond its end or
when the sum of offset and count wraps around. -/
def readBytes (B : ℕ → Block) (d : Dinode) (off n : ℕ) : List UInt8 :=
  if off ≤ d.size ∧ off+n < 2^32 then ((contents B d).drop off).take n else []

section ReadBytes
variable {B : ℕ → Block} {d : Dinode} {off n : ℕ}

theorem length_readBytes (hoff : off < 2^32) (hn : n < 2^32) :
    (readBytes B d off n).length = readCount d off n := by
  unfold readBytes readCount
  split_ifs with hrange hout hend hout hend <;>
    simp only [List.length_take, List.length_drop, contents, List.length_map, List.length_range,
      List.length_nil] <;> omega

theorem getD_readBytes (hk : k < (readBytes B d off n).length) :
    (readBytes B d off n).getD k 0 = fileByte B d (off+k) := by
  rw [List.getD_eq_getElem _ _ hk]
  unfold readBytes at hk ⊢
  split_ifs at hk ⊢ with hrange
  · simp [contents]
  · exact absurd hk (Nat.not_lt_zero k)

end ReadBytes

/-- What is expected of a write that is within the limits: `k` bytes have got into the file, and it
was not less than asked for unless the disk is full. No block has become free. -/
structure WriteRight (sb : Superblock) (inum : ℕ) (src : Src) (off n : ℕ) (B : ℕ → Block) (k : ℕ)
    (B' : ℕ → Block) (d' : Dinode) : Prop where
  le : k ≤ n
  short : k < n → Full sb B'
  marks : ∀ b < sb.size, marked sb B b = true → marked sb B' b = true
  replaced : contents B' d' = (contents B (dinodeOf sb B inum)).take off++
    (List.range k).map (byteOf src)++(contents B (dinodeOf sb B inum)).drop (off+k)
  size : d'.size = max (dinodeOf sb B inum).size (off+k)
  fields : d' = { dinodeOf sb B inum with size := d'.size, addrs := d'.addrs }
  others : ∀ n < sb.ninodes, n ≠ inum → (dinodeOf sb B n).type ≠ 0 → Untouched sb B B' n
  stored : dinodeOf sb B' inum = d'
  whole : Whole B' d'
  consistent : Consistent sb B' (dinodeOf sb B')

section Files
variable {sb : Superblock} {s : Store} {inum : ℕ} {src : Src}

section
variable (hsb : sb.Ok) (hin : inum < sb.ninodes)
include hsb hin

theorem WroteBytes.stored {B B1 : ℕ → Block} {d1 : Dinode}
    (ht : (dinodeOf sb B inum).type ≠ 0) (hoff : off ≤ (dinodeOf sb B inum).size)
    (hsize : (dinodeOf sb B inum).size ≤ MAXFILE*BSIZE) (hend : off+n ≤ MAXFILE*BSIZE) (hk : k ≤ n)
    (hshort : k < n → Full sb B1) (hmeta : ∀ b < sb.dataStart, marked sb B1 b = true)
    (hmarks : ∀ b < sb.size, marked sb B b = true → marked sb B1 b = true)
    (h : WroteBytes sb inum (byteOf src) off B (dinodeOf sb B inum) k (marked sb B1 · = true) B1 d1)
    {d2 : Dinode} (hd2 : d2 = { d1 with size := max d1.size (off+k) }) :
    WriteRight sb inum src off n B k (iupdated sb B1 inum d2) d2 := by
  have hsize1 : d1.size = (dinodeOf sb B inum).size := by rw [h.fields]
  have hsize2 : d2.size = max (dinodeOf sb B inum).size (off+k) := by rw [hd2, hsize1]
  have haddrs : d2.addrs = d1.addrs := by rw [hd2]
  have htype2 : d2.type ≠ 0 := by
    rw [hd2, h.fields]
    exact ht
  have hfits : d2.Fits := by
    have hf := h.owned.fits inum hin
    rw [flight_self] at hf
    rw [hd2]
    refine ⟨hf.type, hf.major, hf.minor, hf.nlink, ?_, hf.addrs⟩
    have hlt : MAXFILE*BSIZE < 2^32 := by decide
    dsimp only
    omega
  have hiblock : ∀ b, sb.IsData b → ∀ n < sb.ninodes, b ≠ sb.iblock n :=
    fun b hb n => data_ne_iblock hsb hb
  have hstored := h.iupdate hin ht hiblock hfits htype2 haddrs
  have hmarked (b : ℕ) : marked sb (iupdated sb B1 inum d2) b = marked sb B1 b := by
    rw [marked, marked, iupdated, update_of_ne (bblock_ne_iblock hsb hin)]
  refine ⟨hk, fun hlt b hb => ?_, fun b hb hm => ?_, ?_, hsize2, by rw [hd2, h.fields],
    hstored.others, hstored.stored, ⟨by omega, fun bn hbn => ?_⟩, ?_, fun b hb => ?_⟩
  · rw [hmarked]
    exact hshort hlt b hb
  · rw [hmarked]
    exact hmarks b hb hm
  · rw [contents, hsize2]
    exact range_replaced hoff hstored.contents
  · rw [hstored.slots]
    exact h.mapped bn (by rwa [hsize2] at hbn)
  · simp only [hmarked]
    exact hstored.owned
  · rw [hmarked]
    exact hmeta b hb

theorem writei_right (hc : Consistent sb s.block (dinodeOf sb s.block))
    (ht : (dinodeOf sb s.block inum).type ≠ 0) (hw : Whole s.block (dinodeOf sb s.block inum))
    (hsrc : Gives src n) (hoff : off ≤ (dinodeOf sb s.block inum).size)
    (hend : off+n ≤ MAXFILE*BSIZE) :
    post (writei sb inum (dinodeOf sb s.block inum) src off n) s (fun r s' => ∃ k, r.1 = some k ∧
      WriteRight sb inum src off n s.block k s'.block r.2) never := by
  have hlt : MAXFILE*BSIZE < 2^32 := by decide
  have hmod : (off+n) % 2^32 = off+n := Nat.mod_eq_of_lt (by omega)
  unfold writei
  rw [if_neg (by rw [hmod]; omega), if_neg (by omega)]
  have hstart : WroteBytes sb inum (byteOf src) off s.block (dinodeOf sb s.block inum) 0
      (marked sb s.block · = true) s.block (dinodeOf sb s.block inum) := by
    refine .start ?_ hoff hw.full
    rw [flight_rest]
    exact hc.toOwned
  apply post_bind_of (writeLoop_writes hsb hin ht hw.size hsrc hend n (Nat.zero_le _) (by omega)
    hc.metadata (fun _ _ hm => hm) hstart)
  rintro ⟨tot, off', d1⟩ s1 ⟨hle, hoff', hshort, hmeta, hmarks, hwrote⟩
  dsimp only at hle hoff' hshort hmeta hmarks hwrote ⊢
  subst hoff'
  have hd2 : (if off+tot > d1.size then { d1 with size := off+tot } else d1) =
      { d1 with size := max d1.size (off+tot) } := by
    split_ifs with hgt
    · rw [Nat.max_eq_right (by omega)]
    · rw [Nat.max_eq_left (by omega)]
  rw [hd2]
  exact ⟨tot, rfl, WroteBytes.stored hsb hin ht hoff hw.size hend hle hshort hmeta hmarks hwrote
    rfl⟩

/-- `writei` outside the file, or beyond its greatest length, does nothing. -/
theorem writei_cases (off : ℕ) (hc : Consistent sb s.block (dinodeOf sb s.block))
    (ht : (dinodeOf sb s.block inum).type ≠ 0) (hw : Whole s.block (dinodeOf sb s.block inum))
    (hsrc : Gives src n) :
    post (writei sb inum (dinodeOf sb s.block inum) src off n) s (fun r s' =>
      if off ≤ (dinodeOf sb s.block inum).size ∧ off+n ≤ MAXFILE*BSIZE then
        ∃ k, r.1 = some k ∧ WriteRight sb inum src off n s.block k s'.block r.2
      else r = (none, dinodeOf sb s.block inum) ∧ s' = s) never := by
  split_ifs with hrange
  · exact writei_right hsb hin hc ht hw hsrc hrange.1 hrange.2
  · have hsize := hw.size
    unfold writei
    split_ifs with hout hbig
    · exact ⟨rfl, rfl⟩
    · exact ⟨rfl, rfl⟩
    · -- neither test has fired
      exact absurd ⟨by omega, by omega⟩ hrange

end

/-- On a consistent disk, and for a file without holes, `writei` and `readi` are those of a byte
array. -/
theorem file_is_byte_array (sb : Superblock) (hsb : sb.Ok) (s : Store) (inum : ℕ)
    (hin : inum < sb.ninodes) (hc : Consistent sb s.block (dinodeOf sb s.block))
    (ht : (dinodeOf sb s.block inum).type ≠ 0) (hw : Whole s.block (dinodeOf sb s.block inum))
    (off n : ℕ) (hoff : off < 2^32) (hn : n < 2^32) :
    (∀ src, Gives src n → post (writei sb inum (dinodeOf sb s.block inum) src off n) s (fun r s' =>
        if off ≤ (dinodeOf sb s.block inum).size ∧ off+n ≤ MAXFILE*BSIZE then
          ∃ k, r.1 = some k ∧ WriteRight sb inum src off n s.block k s'.block r.2
        else r = (none, dinodeOf sb s.block inum) ∧ s' = s) (fun _ _ => False)) ∧
    ∀ dst va mem, Dst.Takes dst va n →
      post (readi sb (dinodeOf sb s.block inum) dst mem va off n) s (fun r s' => s' = s ∧
        r.2.2 = dinodeOf sb s.block inum ∧
        r.1 = some (readBytes s.block (dinodeOf sb s.block inum) off n).length ∧
        r.2.1 = memmove mem va (fun k => (readBytes s.block (dinodeOf sb s.block inum) off n).getD k 0)
          (readBytes s.block (dinodeOf sb s.block inum) off n).length) (fun _ _ => False) := by
  obtain ⟨d, hd⟩ : ∃ d, d = dinodeOf sb s.block inum := ⟨_, rfl⟩
  refine ⟨fun src => writei_cases hsb hin off hc ht hw, fun dst va mem htakes => ?_⟩
  · rw [← hd] at hw ⊢
    refine post_imp (readi_delivers hw off n) ?_
    rintro ⟨r, mem', d'⟩ s' ⟨hs, hd', hdel⟩
    have hcount : readCount d off n ≤ n := by
      unfold readCount
      split_ifs <;> omega
    have hr := hdel.takes (by simpa using htakes.sub (k := 0) (by omega))
    obtain ⟨t, hle, hmem, hcase⟩ := hdel.stored
    obtain ⟨hsome, rfl⟩ : r = some (readCount d off n) ∧ t = readCount d off n :=
      hcase.resolve_left hr
    have hlength := length_readBytes (B := s.block) (d := d) hoff hn
    refine ⟨hs, hd', by rw [hlength]; exact hsome, ?_⟩
    rw [hlength]
    refine hmem.trans (memmove_congr fun k hk => ?_)
    rw [getD_readBytes (by rwa [hlength])]

end Files

/-! ## A new disk with one empty file -/

def smallDisk : Superblock := ⟨FSMAGIC, 2000, 200, 2, 33, 46⟩

def emptyFile : Dinode := { Dinode.zero with type := T_FILE }

def freshDisk : ℕ → Block := fun b =>
  if b = 33 then setDinode zeroBlock 1 emptyFile
  else if b = 46 then fun i => if i.val < 5 then 255 else if i.val = 5 then 127 else 0
  else zeroBlock

theorem smallDisk_ok : smallDisk.Ok := by
  refine ⟨?_, ?_, ?_, ?_, ?_, ?_, ?_⟩ <;> decide

theorem emptyFile_fits : emptyFile.Fits :=
  ⟨by decide, by decide, by decide, by decide, by decide, fun _ => Nat.two_pow_pos 32⟩

theorem dinodeOf_freshDisk (hn : n < 200) :
    dinodeOf smallDisk freshDisk n = if n = 1 then emptyFile else Dinode.zero := by
  have hblock : smallDisk.iblock n = n/16+33 := rfl
  have hipb : IPB = 16 := rfl
  rw [dinodeOf, hblock, freshDisk]
  by_cases hfirst : n/16+33 = 33
  · rw [if_pos hfirst, hipb]
    by_cases hone : n = 1
    · rw [hone]
      exact getDinode_setDinode_same _ _ _ (by decide) emptyFile_fits
    · rw [if_neg hone, getDinode_setDinode_other _ _ _ (by omega), getDinode_zeroBlock]
  · rw [if_neg hfirst, if_neg (by omega), if_neg (by omega), getDinode_zeroBlock]

theorem freshDisk_addrs (hn : n < 200) (s : Slot) :
    slotAddr freshDisk (dinodeOf smallDisk freshDisk n) s = 0 := by
  have haddrs (j : Fin (NDIRECT+1)) : (dinodeOf smallDisk freshDisk n).addrs j = 0 := by
    rw [dinodeOf_freshDisk hn]
    split_ifs <;> rfl
  cases s with
  | addr k => exact haddrs k
  | entry j => exact if_pos (haddrs indirect)

theorem freshDisk_consistent : Consistent smallDisk freshDisk (dinodeOf smallDisk freshDisk) := by
  refine ⟨⟨⟨fun _ _ => getDinode_fits _ _, ?_⟩, ?_, ?_⟩, ?_⟩
  · exact fun n hn _ s => absurd (freshDisk_addrs hn s)
  · exact fun n hn _ s => absurd (freshDisk_addrs hn s)
  · exact fun n hn _ _ _ _ s _ => absurd (freshDisk_addrs hn s)
  · decide

theorem freshDisk_type : (dinodeOf smallDisk freshDisk 1).type ≠ 0 := by
  decide

theorem freshDisk_whole : Whole freshDisk (dinodeOf smallDisk freshDisk 1) := by
  exact ⟨Nat.zero_le _, fun bn hbn => absurd hbn (Nat.not_lt_zero _)⟩

theorem file_is_byte_array_freshDisk :
    Consistent smallDisk freshDisk (dinodeOf smallDisk freshDisk) ∧
    (dinodeOf smallDisk freshDisk 1).type ≠ 0 ∧
    ∀ src, Gives src 1500 →
      post (writei smallDisk 1 (dinodeOf smallDisk freshDisk 1) src 0 1500) ⟨freshDisk, []⟩
        (fun r s' => if 0 ≤ (dinodeOf smallDisk freshDisk 1).size ∧ 0+1500 ≤ MAXFILE*BSIZE then
          ∃ k, r.1 = some k ∧ WriteRight smallDisk 1 src 0 1500 freshDisk k s'.block r.2
        else r = (none, dinodeOf smallDisk freshDisk 1) ∧ s' = ⟨freshDisk, []⟩) (fun _ _ => False) :=
  ⟨freshDisk_consistent, freshDisk_type, (file_is_byte_array smallDisk smallDisk_ok ⟨freshDisk, []⟩ 1
    (by decide) freshDisk_consistent freshDisk_type freshDisk_whole 0 1500 (by decide)
    (by decide)).1⟩

end Xv6.BlockFs
