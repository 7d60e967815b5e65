import Xv6.BlockFs
import Xv6.FsOwned

/-! `bmap` and `readi` of an inode without holes change nothing, and give the bytes of the file. -/
namespace Xv6.BlockFs
open ByteFields StateOutcome

variable {sb : Superblock} {s : Store} {d : Dinode}

/-- The inode has a block wherever its size says so, and is not longer than `bmap` can reach. -/
structure Whole (B : ℕ → Block) (d : Dinode) : Prop where
  size : d.size ≤ MAXFILE*BSIZE
  full : ∀ bn, bn*BSIZE < d.size → slotAddr B d (bnSlot bn) ≠ 0

theorem bmap_mapped {bn : ℕ} (hz : slotAddr s.block d (bnSlot bn) ≠ 0) (hbn : bn < MAXFILE) :
    post (bmap sb d bn) s (fun r s' => r = (slotAddr s.block d (bnSlot bn), d) ∧ s' = s)
      never := by
  unfold bmap
  by_cases hdirect : bn < NDIRECT
  · rw [bnSlot_direct hdirect] at hz ⊢
    change d.addrs ⟨bn, _⟩ ≠ 0 at hz
    rw [dif_pos hdirect, bmapSlot, if_neg hz]
    exact ⟨rfl, rfl⟩
  · have hlt : bn-NDIRECT < NINDIRECT := by
      have hmax : MAXFILE = NDIRECT+NINDIRECT := rfl
      omega
    rw [bnSlot_entry hdirect hlt] at hz ⊢
    have hind : d.addrs indirect ≠ 0 := fun hind => hz (if_pos hind)
    have hslot : slotAddr s.block d (.entry ⟨bn-NDIRECT, hlt⟩) =
        getLE (s.block (d.addrs indirect)) (4*(bn-NDIRECT)) 4 := if_neg hind
    rw [hslot] at hz ⊢
    rw [dif_neg hdirect, if_pos hlt, bmapSlot, if_neg hind, pure_bind]
    dsimp only
    rw [if_neg hind]
    simp only [bmapEntry, bread, post_bind, post_get, post_pure, if_neg hz, and_self]

section Copyout
variable {mem : Mem} {bytes : ℕ → UInt8} {va len : ℕ}

@[simp] theorem memmove_zero : memmove mem va bytes 0 = mem := by
  funext a
  rw [memmove, if_neg (by omega)]

theorem memmove_append (n : ℕ) :
    memmove (memmove mem va bytes n) (va+n) (fun k => bytes (n+k)) len =
      memmove mem va bytes (n+len) := by
  funext a
  simp only [memmove]
  by_cases hlo : va+n ≤ a ∧ a < va+n+len
  · rw [if_pos hlo, if_pos (by omega)]
    congr 1
    omega
  · rw [if_neg hlo]
    by_cases hin : va ≤ a ∧ a < va+n
    · rw [if_pos hin, if_pos (by omega)]
    · rw [if_neg hin, if_neg (by omega)]

theorem memmove_congr {bytes' : ℕ → UInt8} (h : ∀ k < len, bytes k = bytes' k) :
    memmove mem va bytes len = memmove mem va bytes' len := by
  funext a
  simp only [memmove]
  by_cases hin : va ≤ a ∧ a < va+len
  · rw [if_pos hin, if_pos hin]
    exact h _ (by omega)
  · rw [if_neg hin, if_neg hin]

/-- A copy stores a first part of the bytes, and all of them when it succeeds. -/
theorem copyoutPages_stores (writable : ℕ → Bool) (mem : Mem) (va : ℕ) (bytes : ℕ → UInt8)
    (len fuel : ℕ) :
    ∃ n ≤ len, (copyoutPages writable fuel mem va bytes len).1 = memmove mem va bytes n ∧
      (len ≤ fuel → (copyoutPages writable fuel mem va bytes len).2 = true → n = len) := by
  induction fuel generalizing mem va bytes len with
  | zero => exact ⟨0, Nat.zero_le _, memmove_zero.symm, fun hle _ => by omega⟩
  | succ fuel ih =>
    unfold copyoutPages
    by_cases hlen : len = 0
    · rw [if_pos hlen]
      exact ⟨0, Nat.zero_le _, memmove_zero.symm, fun _ _ => hlen.symm⟩
    rw [if_neg hlen]
    by_cases hw : writable (va/PGSIZE) = true
    swap
    · rw [if_neg hw]
      exact ⟨0, Nat.zero_le _, memmove_zero.symm, fun _ h => absurd h Bool.false_ne_true⟩
    rw [if_pos hw]
    obtain ⟨k, hk⟩ : ∃ k, k = min (PGSIZE-va % PGSIZE) len := ⟨_, rfl⟩
    have hpos : 0 < k := by
      have hmod : va % PGSIZE < PGSIZE := Nat.mod_lt _ (by decide)
      omega
    rw [← hk]
    obtain ⟨n, hn, hmem, hall⟩ :=
      ih (memmove mem va bytes k) (va+k) (fun i => bytes (k+i)) (len-k)
    refine ⟨k+n, by omega, ?_, fun hle hok => ?_⟩
    · rw [hmem, memmove_append]
    · have := hall (by omega) hok
      omega

theorem copyoutPages_ok {writable : ℕ → Bool} (fuel : ℕ)
    (h : ∀ a, va ≤ a → a < va+len → writable (a/PGSIZE) = true) :
    (copyoutPages writable fuel mem va bytes len).2 = true := by
  induction fuel generalizing mem va bytes len with
  | zero => rfl
  | succ fuel ih =>
    unfold copyoutPages
    by_cases hlen : len = 0
    · rw [if_pos hlen]
    · rw [if_neg hlen, if_pos (h va le_rfl (by omega))]
      exact ih fun a hlo hhi => h a (by omega) (by omega)

/-- The destination takes `n` bytes from address `va` on. -/
def Dst.Takes (dst : Dst) (va n : ℕ) : Prop :=
  match dst with
  | .kernel => True
  | .user writable => ∀ a, va ≤ a → a < va+n → writable (a/PGSIZE) = true

theorem Dst.Takes.sub {dst : Dst} {n k : ℕ} (h : dst.Takes va n) (hk : k+len ≤ n) :
    dst.Takes (va+k) len := by
  cases dst with
  | kernel => trivial
  | user writable => exact fun a hlo hhi => h a (by omega) (by omega)

theorem eitherCopyout_stores (dst : Dst) (mem : Mem) (va : ℕ) (bytes : ℕ → UInt8) (len : ℕ) :
    ∃ n ≤ len, (eitherCopyout dst mem va bytes len).1 = memmove mem va bytes n ∧
      ((eitherCopyout dst mem va bytes len).2 = true → n = len) := by
  cases dst with
  | kernel => exact ⟨len, le_rfl, rfl, fun _ => rfl⟩
  | user writable =>
    obtain ⟨n, hn, hmem, hall⟩ := copyoutPages_stores writable mem va bytes len len
    exact ⟨n, hn, hmem, hall le_rfl⟩

theorem eitherCopyout_ok {dst : Dst} (h : dst.Takes va len) :
    (eitherCopyout dst mem va bytes len).2 = true := by
  cases dst with
  | kernel => rfl
  | user writable => exact copyoutPages_ok len h

end Copyout

/-- A read of `n` bytes at `off` has stored bytes of the file at `va`: all of them, or, when a copy
has failed, a first part. -/
structure Delivered (B : ℕ → Block) (d : Dinode) (dst : Dst) (mem : Mem) (va off n : ℕ)
    (r : Option ℕ) (mem' : Mem) : Prop where
  stored : ∃ t ≤ n, mem' = memmove mem va (fun k => fileByte B d (off+k)) t ∧
    (r = none ∨ r = some n ∧ t = n)
  takes : dst.Takes va n → r ≠ none

section Reading
variable {dst : Dst} {mem mem0 : Mem} {va base n : ℕ}

/-- The loop of `readi` at offset `base+tot` of a file that has its blocks up to the end of the read;
the bytes before are stored. -/
theorem readLoop_delivers (hmax : base+n ≤ MAXFILE*BSIZE)
    (hfull : ∀ bn, bn*BSIZE < base+n → slotAddr s.block d (bnSlot bn) ≠ 0) (fuel : ℕ) {tot : ℕ}
    (htot : tot ≤ n) (hfuel : n ≤ tot+fuel)
    (hmem : mem = memmove mem0 va (fun k => fileByte s.block d (base+k)) tot) :
    post (readLoop sb dst va fuel d mem tot (base+tot) n) s (fun r s' => s' = s ∧ r.2.2 = d ∧
      Delivered s.block d dst mem0 va base n r.1 r.2.1) never := by
  have hdone (mem : Mem) (hmem : mem = memmove mem0 va (fun k => fileByte s.block d (base+k)) n) :
      post (pure (some n, mem, d) : M (Option ℕ × Mem × Dinode)) s (fun r s' => s' = s ∧ r.2.2 = d ∧
        Delivered s.block d dst mem0 va base n r.1 r.2.1) never :=
    ⟨rfl, rfl, ⟨n, le_rfl, hmem, .inr ⟨rfl, rfl⟩⟩, fun _ => Option.some_ne_none _⟩
  induction fuel generalizing mem tot with
  | zero =>
    obtain rfl : tot = n := by omega
    exact hdone mem hmem
  | succ fuel ih =>
    unfold readLoop
    by_cases hlt : tot < n
    swap
    · obtain rfl : tot = n := by omega
      rw [if_neg hlt]
      exact hdone mem hmem
    rw [if_pos hlt]
    have hin : base+tot < base+n := by omega
    have hz := hfull ((base+tot)/BSIZE) (block_start_lt hin)
    apply post_bind_of (bmap_mapped hz (block_lt_maxfile (Nat.lt_of_lt_of_le hin hmax)))
    rintro r s' ⟨rfl, rfl⟩
    dsimp only
    rw [if_neg hz]
    simp only [bread, post_bind, post_get, post_pure]
    obtain ⟨k, hk⟩ : ∃ k, k = min (n-tot) (BSIZE-(base+tot) % BSIZE) := ⟨_, rfl⟩
    have hpos : 0 < k := by
      have hmod : (base+tot) % BSIZE < BSIZE := Nat.mod_lt _ (by decide)
      omega
    rw [← hk]
    -- the piece of the block is a piece of the file
    have hpiece (i : ℕ) (hi : i < k) : get8 (s'.block (slotAddr s'.block d
        (bnSlot ((base+tot)/BSIZE)))) ((base+tot) % BSIZE+i) = fileByte s'.block d (base+(tot+i)) := by
      obtain ⟨hdiv, hmod⟩ := same_block (base+tot) i (by omega)
      rw [fileByte, ← Nat.add_assoc, hdiv, hmod]
    have hstores := eitherCopyout_stores dst mem (va+tot) (fun i => get8 (s'.block
      (slotAddr s'.block d (bnSlot ((base+tot)/BSIZE)))) ((base+tot) % BSIZE+i)) k
    have htakes : dst.Takes va n → (eitherCopyout dst mem (va+tot) (fun i => get8 (s'.block
        (slotAddr s'.block d (bnSlot ((base+tot)/BSIZE)))) ((base+tot) % BSIZE+i)) k).2 = true :=
      fun ht => eitherCopyout_ok (ht.sub (by omega))
    generalize eitherCopyout dst mem (va+tot) _ k = copy at hstores htakes ⊢
    obtain ⟨mem1, ok⟩ := copy
    obtain ⟨t, ht, hmem1, hall⟩ := hstores
    dsimp only at hmem1 hall htakes ⊢
    have hnext : mem1 = memmove mem0 va (fun i => fileByte s'.block d (base+i)) (tot+t) := by
      rw [hmem1, hmem, ← memmove_append]
      exact memmove_congr fun i hi => hpiece i (by omega)
    cases ok with
    | true =>
      rw [Nat.add_assoc]
      rw [hall rfl] at hnext
      exact ih (by omega) (by omega) hnext
    | false =>
      refine ⟨rfl, rfl, ⟨tot+t, by omega, hnext, .inl rfl⟩, fun htake => ?_⟩
      exact absurd (htakes htake) Bool.false_ne_true

/-- The number of bytes that `readi` goes for. -/
def readCount (d : Dinode) (off n : ℕ) : ℕ :=
  if off > d.size ∨ (off+n) % 2^32 < off then 0 else if off+n > d.size then d.size-off else n

theorem readi_delivers (hd : Whole s.block d) (off n : ℕ) :
    post (readi sb d dst mem va off n) s (fun r s' => s' = s ∧ r.2.2 = d ∧
      Delivered s.block d dst mem va off (readCount d off n) r.1 r.2.1) never := by
  unfold readi readCount
  by_cases hout : off > d.size ∨ (off+n) % 2^32 < off
  · rw [if_pos hout, if_pos hout]
    exact ⟨rfl, rfl, ⟨0, le_rfl, memmove_zero.symm, .inr ⟨rfl, rfl⟩⟩, fun _ => Option.some_ne_none _⟩
  · rw [if_neg hout, if_neg hout]
    have hend : off+(if off+n > d.size then d.size-off else n) ≤ d.size := by
      split_ifs <;> omega
    exact readLoop_delivers (hend.trans hd.size) (fun bn hbn => hd.full bn (by omega)) _ (Nat.zero_le _)
      (by omega) memmove_zero.symm

/-- A read in the part of the file that has blocks, to kernel memory. -/
theorem readi_inside {off : ℕ} (hsize : off+n ≤ d.size)
    (hmax : off+n ≤ MAXFILE*BSIZE)
    (hfull : ∀ bn, bn*BSIZE < off+n → slotAddr s.block d (bnSlot bn) ≠ 0) :
    post (readi sb d .kernel mem va off n) s (fun r s' => s' = s ∧
      r = (some n, memmove mem va (fun k => fileByte s.block d (off+k)) n, d)) never := by
  have hlt : MAXFILE*BSIZE < 2^32 := by decide
  have hmod : (off+n) % 2^32 = off+n := Nat.mod_eq_of_lt (by omega)
  unfold readi
  rw [if_neg (by rw [hmod]; omega), if_neg (by omega)]
  refine post_imp (readLoop_delivers hmax hfull n (Nat.zero_le _) (by omega) memmove_zero.symm) ?_
  rintro ⟨r, mem', d'⟩ s' ⟨hs, rfl, hdel⟩
  obtain ⟨t, _, hmem, hcase⟩ := hdel.stored
  obtain ⟨rfl, rfl⟩ := hcase.resolve_left (hdel.takes trivial)
  exact ⟨hs, by rw [← hmem]⟩

end Reading

end Xv6.BlockFs
