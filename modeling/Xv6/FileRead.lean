import Xv6.BlockSpecs

/-! `fileread` hands its `int` count to `readi`, which takes it for a `uint` and tests it only
against the size of the file and for a sum that wraps around. -/
namespace Xv6.BlockFs
open ByteFields StateOutcome

variable {sb : Superblock} {s : Store} {d : Dinode} {f : File} {mem : Mem} {writable : ℕ → Bool}
  {addr : ℕ} {n : ℤ}

/-- What is expected of a read of `n` bytes to `addr`. -/
structure ReadRight (f : File) (mem : Mem) (addr : ℕ) (n r : ℤ) (f' : File) (mem' : Mem) : Prop where
  stored : ∀ a, mem' a ≠ mem a → addr ≤ a ∧ (a:ℤ) < addr+max n 0
  negative : n < 0 → (r = -1 ∨ r = 0) ∧ mem' = mem ∧ f' = f

def fileCount (f : File) (d : Dinode) (n : ℤ) : ℕ := readCount d f.off (uint n)

theorem fileread_delivers (hd : Whole s.block d) (hf : f.readable = true) :
    post (fileread sb f d writable mem addr n) s (fun r s' => s' = s ∧
      ∃ q, Delivered s.block d (.user writable) mem addr f.off (fileCount f d n) q r.2.2.1 ∧
        r.1 = q.elim (-1) (↑) ∧ (fileCount f d n = 0 → r.2.1 = f)) never := by
  unfold fileread
  rw [if_neg (by rw [hf]; exact Bool.true_eq_false_eq_False)]
  apply post_bind_of (readi_delivers hd f.off (uint n))
  rintro ⟨q, mem', d'⟩ s' ⟨rfl, rfl, hdel⟩
  dsimp only at hdel ⊢
  cases q with
  | none => exact ⟨rfl, none, hdel, rfl, fun _ => rfl⟩
  | some t =>
    dsimp only
    split_ifs with hpos
    · refine ⟨rfl, some t, hdel, rfl, fun hzero => ?_⟩
      -- a read of no bytes does not return more than 0
      obtain ⟨_, _, _, hr | ⟨hr, _⟩⟩ := hdel.stored
      · cases hr
      · cases hr
        exact absurd hzero (Nat.pos_iff_ne_zero.mp hpos)
    · exact ⟨rfl, some t, hdel, rfl, fun _ => rfl⟩

/-- A count that is not negative is a limit, and a negative one is taken for a large number. -/
theorem fileCount_le (hn : 0 ≤ n) : (fileCount f d n : ℤ) ≤ n := by
  have huint : (uint n : ℤ) ≤ n := by
    rw [uint]
    omega
  unfold fileCount readCount
  split_ifs <;> omega

theorem uint_neg (hn : n < 0) (hlo : -2^31 ≤ n) : (uint n : ℤ) = n+2^32 := by
  have hmod : n % 2^32 = n+2^32 := by
    rw [← Int.add_emod_right]
    exact Int.emod_eq_of_lt (by omega) (by omega)
  rw [uint, hmod, Int.toNat_of_nonneg (by omega)]

theorem fileCount_neg (hd : d.size ≤ MAXFILE*BSIZE) (hn : n < 0) (hlo : -2^31 ≤ n)
    (hoff : f.off < 2^32) :
    fileCount f d n = if (f.off:ℤ) < -n then d.size-f.off else 0 := by
  have huint := uint_neg hn hlo
  have hsize : d.size < 2^31 := Nat.lt_of_le_of_lt hd (by decide)
  unfold fileCount readCount
  split_ifs <;> omega

/-- A read for which `readi` goes for no more bytes than it was asked for is right. -/
theorem fileread_right (hd : Whole s.block d) (hcount : (fileCount f d n : ℤ) ≤ max n 0) :
    post (fileread sb f d writable mem addr n) s (fun r _ => ReadRight f mem addr n r.1 r.2.1 r.2.2.1)
      never := by
  by_cases hf : f.readable = true
  · refine post_imp (fileread_delivers hd hf) ?_
    rintro ⟨r, f', mem', d'⟩ s' ⟨_, q, hdel, hr, hsame⟩
    obtain ⟨t, ht, hmem, hq⟩ := hdel.stored
    refine ⟨fun a ha => ?_, fun hneg => ?_⟩
    · by_contra hout
      refine ha ?_
      rw [hmem, memmove, if_neg (by omega)]
    · have hzero : fileCount f d n = 0 := by omega
      have ht0 : t = 0 := by omega
      refine ⟨?_, ?_, hsame hzero⟩
      · rcases hq with rfl | ⟨rfl, _⟩
        · exact .inl hr
        · rw [hzero] at hr
          exact .inr hr
      · rw [hmem, ht0, memmove_zero]
  · rw [fileread, if_pos (by simpa using hf)]
    exact ⟨fun a => absurd rfl, fun _ => ⟨.inl rfl, rfl, rfl⟩⟩

/-- With memory that differs from the file and can be written, the first byte shows. -/
theorem fileread_stores (hd : Whole s.block d) (hf : f.readable = true)
    (hpos : 0 < fileCount f d n) :
    post (fileread sb f d (fun _ => true) (fun _ => fileByte s.block d f.off+1) 0 n) s
      (fun r _ => r.1 = fileCount f d n ∧ r.2.2.1 0 = fileByte s.block d f.off) never := by
  refine post_imp (fileread_delivers hd hf) ?_
  rintro ⟨r, f', mem', d'⟩ s' ⟨_, q, hdel, hr, _⟩
  have htakes : q ≠ none := hdel.takes fun _ _ _ => rfl
  obtain ⟨t, ht, hmem, hq⟩ := hdel.stored
  rcases hq with hnone | ⟨rfl, rfl⟩
  · exact absurd hnone htakes
  · refine ⟨hr, ?_⟩
    rw [hmem, memmove, if_pos (by omega), Nat.add_zero]

/-- A read of an inode file stores no more than it was asked for, and nothing for a negative count,
exactly if the file cannot be read, the count is not negative, the offset is not below the size of
the file, or the sum of offset and count is not negative. -/
theorem fileread_right_iff (sb : Superblock) (s : Store) (d : Dinode) (f : File) (n : ℤ)
    (hd : Whole s.block d) (hlo : -2^31 ≤ n) (hoff : f.off < 2^32) :
    (∀ writable mem addr, post (fileread sb f d writable mem addr n) s
      (fun r _ => ReadRight f mem addr n r.1 r.2.1 r.2.2.1) (fun _ _ => False)) ↔
    f.readable = false ∨ 0 ≤ n ∨ d.size ≤ f.off ∨ 0 ≤ f.off+n := by
  constructor
  · intro hright
    by_contra hcon
    simp only [not_or, Bool.not_eq_false, not_le] at hcon
    obtain ⟨hf, hneg, hsize, hsum⟩ := hcon
    have hcount := fileCount_neg (f := f) hd.size hneg hlo hoff
    rw [if_pos (by omega)] at hcount
    -- the same read with a memory that shows it
    have hstores : post (fileread sb f d (fun _ => true) (fun _ => fileByte s.block d f.off+1) 0 n) s
        (fun r _ => r.1 = fileCount f d n ∧ r.2.2.1 0 = fileByte s.block d f.off)
        (fun _ _ => False) := fileread_stores hd hf (by omega)
    refine not_post_false _ _ (post_mono (post_and (hright _ _ _) hstores) ?_ fun _ _ he => he.1)
    rintro ⟨r, f', mem', d'⟩ s' ⟨hr, _, hbyte⟩
    obtain ⟨_, hmem, _⟩ := hr.negative hneg
    rw [hmem] at hbyte
    exact absurd hbyte (by simp)
  · intro hcond writable mem addr
    by_cases hneg : n < 0
    · rcases hcond with hf | hn | hrest
      · rw [fileread, if_pos hf]
        exact ⟨fun a => absurd rfl, fun _ => ⟨.inl rfl, rfl, rfl⟩⟩
      · omega
      · apply fileread_right hd
        rw [fileCount_neg hd.size hneg hlo hoff]
        split_ifs <;> omega
    · exact fileread_right hd ((fileCount_le (by omega)).trans (le_max_left _ _))

def tenBytes : Dinode := { Dinode.zero with type := T_FILE, size := 10, addrs := fun _ => 5 }

theorem tenBytes_whole (B : ℕ → Block) : Whole B tenBytes := by
  refine ⟨by decide, fun bn hbn => ?_⟩
  have hbn' : bn*BSIZE < 10 := hbn
  obtain rfl : bn = 0 := by
    rw [BSIZE] at hbn'
    omega
  exact Nat.succ_ne_zero 4

def sevens : Store := ⟨fun _ _ => 7, []⟩

theorem fileread_right_iff_tenBytes :
    post (fileread ⟨FSMAGIC, 2000, 200, 2, 33, 46⟩ ⟨true, false, 3⟩ tenBytes (fun _ => true)
      (fun _ => 0) 0 (-2)) sevens
      (fun r _ => ReadRight ⟨true, false, 3⟩ (fun _ => 0) 0 (-2) r.1 r.2.1 r.2.2.1)
      (fun _ _ => False) :=
  (fileread_right_iff _ _ _ _ _ (tenBytes_whole _) (by decide) (by decide)).mpr
    (.inr (.inr (.inr (by decide)))) _ _ _

/-- `read(fd, buf, -1)` at the beginning of the file delivers all of it. -/
theorem negative_read_delivers :
    post (fileread ⟨FSMAGIC, 2000, 200, 2, 33, 46⟩ ⟨true, false, 0⟩ tenBytes (fun _ => true)
      (fun _ => fileByte sevens.block tenBytes 0+1) 0 (-1)) sevens (fun r _ => r.1 = 10 ∧
        ¬ReadRight ⟨true, false, 0⟩ (fun _ => fileByte sevens.block tenBytes 0+1) 0 (-1) r.1 r.2.1
          r.2.2.1) (fun _ _ => False) := by
  have hcount : fileCount ⟨true, false, 0⟩ tenBytes (-1) = 10 := by decide
  refine post_imp (fileread_stores (s := sevens) (f := ⟨true, false, 0⟩) (tenBytes_whole _) rfl
    (by rw [hcount]; decide)) ?_
  rintro ⟨r, f', mem', d'⟩ s' ⟨hr, _⟩
  refine ⟨hr, fun hright => ?_⟩
  obtain ⟨hcase | hcase, _⟩ := hright.negative (by decide)
  · rw [hr] at hcase
    exact absurd hcase (by decide)
  · rw [hr] at hcase
    exact absurd hcase (by decide)

end Xv6.BlockFs
