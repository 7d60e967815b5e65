import Xv6.BlockSpecs
import Xv6.FileBytes
import Mathlib.Data.Finset.Card

/-! How many blocks a `writei` passes to `log_write`: two for every block that is allocated, itself
and its bitmap block, and one for a block that is there already. -/
namespace Xv6.BlockFs
open ByteFields StateOutcome Function

variable {sb : Superblock} {s : Store} {d : Dinode} {src : Src} {inum : ℕ}

/-- The number of blocks that a range of a file touches. -/
def blocksOf (off n : ℕ) : ℕ := if n = 0 then 0 else (off+n-1)/BSIZE-off/BSIZE+1

theorem blocksOf_step (off : ℕ) {left k : ℕ} (hpos : 0 < left)
    (hk : k = min left (BSIZE-off % BSIZE)) :
    blocksOf (off+k) (left-k)+1 ≤ blocksOf off left := by
  rw [blocksOf, blocksOf, BSIZE] at *
  split_ifs <;> omega

def Store.logCount (s : Store) : ℕ := s.logged.toFinset.card

/-- What a write has spent: the blocks logged, with the indirect block and, if there is none yet,
the bitmap block that it will take to get one. -/
def load (d : Dinode) (s : Store) : ℕ :=
  if d.addrs indirect = 0 then s.logCount+2
  else (insert (d.addrs indirect) s.logged.toFinset).card

theorem logCount_le_load : s.logCount ≤ load d s := by
  unfold load Store.logCount
  split_ifs
  · omega
  · exact Finset.card_le_card (Finset.subset_insert _ _)

theorem load_start (B : ℕ → Block) : load d ⟨B, []⟩ ≤ 2 := by
  unfold load Store.logCount
  split_ifs <;> simp

variable {s' : Store} {b n off : ℕ} {r : ℕ × Dinode}

theorem load_congr {d' : Dinode} (hl : s'.logged = s.logged)
    (hd : d'.addrs indirect = d.addrs indirect) : load d' s' = load d s := by
  simp only [load, Store.logCount, hl, hd]

theorem load_logged (hl : s'.logged = b :: s.logged) :
    load d s' ≤ load d s+1 := by
  unfold load Store.logCount
  rw [hl, List.toFinset_cons]
  split_ifs
  · have := Finset.card_insert_le b s.logged.toFinset
    omega
  · rw [Finset.insert_comm]
    exact Finset.card_insert_le _ _

theorem load_again (hl : s'.logged = b :: s.logged)
    (hb : b ∈ s.logged ∨ d.addrs indirect ≠ 0 ∧ b = d.addrs indirect) :
    load d s' ≤ load d s := by
  unfold load Store.logCount
  rw [hl, List.toFinset_cons]
  rcases hb with hb | ⟨hz, rfl⟩
  · rw [Finset.insert_eq_self.mpr (List.mem_toFinset.mpr hb)]
  · rw [if_neg hz, if_neg hz, Finset.insert_idem]

theorem load_indirect {d' : Dinode} {a : ℕ} (hz : d.addrs indirect = 0)
    (hl : s'.logged = a :: b :: s.logged) (hd : d'.addrs indirect = a) (ha : a ≠ 0) :
    load d' s' ≤ load d s := by
  unfold load Store.logCount
  rw [if_pos hz, if_neg (by rwa [hd]), hd, hl, List.toFinset_cons, List.toFinset_cons,
    Finset.insert_idem]
  have hb := Finset.card_insert_le b s.logged.toFinset
  have ha := Finset.card_insert_le a (insert b s.logged.toFinset)
  omega

/-- `balloc` logs nothing and returns 0, or logs the bitmap block and the block that it returns. -/
theorem ballocFrom_logs (n b : ℕ) : post (ballocFrom sb n b) s (fun a s' =>
    (a = 0 ∧ s' = s) ∨ ∃ c, s'.logged = a :: c :: s.logged) never := by
  induction n generalizing b with
  | zero => exact .inl ⟨rfl, rfl⟩
  | succ n ih =>
    simp only [ballocFrom, bread, post_bind, post_get, post_pure]
    cases findFree (s.block (sb.bblock b)) (min BPB (sb.size-b)) 0 with
    | none => exact ih (b+BPB)
    | some bi =>
      exact .inr ⟨sb.bblock b, rfl⟩

theorem balloc_logs : post (balloc sb) s (fun a s' =>
    (a = 0 ∧ s' = s) ∨ ∃ c, s'.logged = a :: c :: s.logged) never :=
  ballocFrom_logs _ _

theorem load_balloc {a c : ℕ} (hl : s'.logged = a :: c :: s.logged) : load d s' ≤ load d s+2 :=
  calc
    load d s' ≤ load d ⟨s'.block, c :: s.logged⟩+1 := load_logged hl
    _ ≤ load d s+1+1 := Nat.add_le_add_right (load_logged rfl) 1

/-- What `bmap` spends: two blocks at most, and when it is two the block is logged already. -/
def Spent (d : Dinode) (s : Store) (r : ℕ × Dinode) (s' : Store) : Prop :=
  load r.2 s' ≤ load d s+1 ∨ load r.2 s' ≤ load d s+2 ∧ (r.1 ≠ 0 → r.1 ∈ s'.logged)

theorem bmapSlot_direct {k : Fin (NDIRECT+1)} (hk : k ≠ indirect) :
    post (bmapSlot sb d k) s (fun r s' => Spent d s r s') never := by
  unfold bmapSlot
  split_ifs with hz
  · apply post_bind_of balloc_logs
    intro a s1 hcases
    rcases hcases with ⟨rfl, rfl⟩ | ⟨c, hl⟩
    · exact .inl (Nat.le_succ _)
    · have hmem : a ∈ s1.logged := by simp [hl]
      split_ifs with ha
      · exact .inr ⟨load_balloc hl, absurd rfl⟩
      · have hsame : (d.setAddr k a).addrs indirect = d.addrs indirect :=
          update_of_ne hk.symm ..
        exact .inr ⟨(load_congr rfl hsame).trans_le (load_balloc hl), fun _ => hmem⟩
  · exact .inl (Nat.le_succ _)

theorem bmapSlot_indirect : post (bmapSlot sb d indirect) s (fun r s' => r.2.addrs indirect = r.1 ∧
      (load r.2 s' ≤ load d s ∨ r.1 = 0 ∧ load r.2 s' ≤ load d s+2)) never := by
  unfold bmapSlot
  split_ifs with hz
  · apply post_bind_of balloc_logs
    intro a s1 hcases
    rcases hcases with ⟨rfl, rfl⟩ | ⟨c, hl⟩
    · exact ⟨hz, .inl le_rfl⟩
    · split_ifs with ha
      · exact ⟨hz, .inr ⟨rfl, load_balloc hl⟩⟩
      · have hself : (d.setAddr indirect a).addrs indirect = a := by
          simp only [Dinode.setAddr, update_self]
        exact ⟨hself, .inl (load_indirect hz hl hself ha)⟩
  · exact ⟨rfl, .inl le_rfl⟩

theorem bmapEntry_logs {j : ℕ} (hz : d.addrs indirect ≠ 0) :
    post (bmapEntry sb (d.addrs indirect) j) s (fun a s' => Spent d s (a, d) s')
      never := by
  simp only [bmapEntry, bread, post_bind, post_get, post_pure]
  split_ifs
  · apply post_bind_of balloc_logs
    intro a s1 hcases
    rcases hcases with ⟨rfl, rfl⟩ | ⟨c, hl⟩
    · exact .inl (Nat.le_succ _)
    · split_ifs with ha
      · exact .inr ⟨load_balloc hl, absurd rfl⟩
      · refine .inr ⟨?_, fun _ => by simp [hl]⟩
        exact (load_again (s := s1) rfl (.inr ⟨hz, rfl⟩)).trans (load_balloc hl)
  · exact .inl (Nat.le_succ _)

theorem bmap_logs {bn : ℕ} (hbn : bn < MAXFILE) :
    post (bmap sb d bn) s (fun r s' => Spent d s r s') never := by
  unfold bmap
  have hmax : MAXFILE = NDIRECT+NINDIRECT := rfl
  split_ifs with hdirect hlt
  · exact bmapSlot_direct (Fin.ne_of_lt hdirect)
  · apply post_bind_of bmapSlot_indirect
    rintro ⟨a, d1⟩ s1 ⟨haddr, hcases⟩
    dsimp only at haddr hcases ⊢
    split_ifs with ha
    · refine .inr ⟨?_, absurd rfl⟩
      dsimp only
      omega
    · rw [← haddr] at ha ⊢
      apply post_bind_of (bmapEntry_logs ha)
      intro e s2 hentry
      rcases hentry with hone | ⟨htwo, hmem⟩
      · exact .inl (by dsimp only at hone ⊢; omega)
      · exact .inr ⟨by dsimp only at htwo ⊢; omega, hmem⟩
  · omega

theorem Spent.write {s1 s2 : Store} (h : Spent d s r s1) (hr : r.1 ≠ 0)
    (hl : s2.logged = r.1 :: s1.logged) : load r.2 s2 ≤ load d s+2 := by
  rcases h with hone | ⟨htwo, hmem⟩
  · have := load_logged (d := r.2) hl
    omega
  · have := load_again (d := r.2) hl (.inl (hmem hr))
    omega

theorem Spent.le {s1 : Store} (h : Spent d s r s1) : load r.2 s1 ≤ load d s+2 := by
  rcases h with hone | ⟨htwo, _⟩ <;> omega

/-- The loop of `writei` spends two blocks for each block of the file that it touches. -/
theorem writeLoop_logs (fuel : ℕ) {tot : ℕ} (hend : off+(n-tot) ≤ MAXFILE*BSIZE) :
    post (writeLoop sb src fuel d tot off n) s (fun r s' =>
      load r.2.2 s' ≤ load d s+2*blocksOf off (n-tot)) never := by
  induction fuel generalizing d s tot off with
  | zero => exact Nat.le_add_right _ _
  | succ fuel ih =>
    unfold writeLoop
    by_cases hlt : tot < n
    swap
    · rw [if_neg hlt]
      exact Nat.le_add_right _ _
    rw [if_pos hlt]
    obtain ⟨k, hk⟩ : ∃ k, k = min (n-tot) (BSIZE-off % BSIZE) := ⟨_, rfl⟩
    have hstep := blocksOf_step off (by omega : 0 < n-tot) hk
    have hsub : n-tot-k = n-(tot+k) := by omega
    rw [hsub] at hstep
    apply post_bind_of (bmap_logs (block_lt_maxfile (by omega)))
    rintro ⟨a, d1⟩ s1 hspent
    dsimp only
    have hle : load d1 s1 ≤ load d s+2 := hspent.le
    split_ifs with hz
    · rw [post_pure]
      dsimp only
      omega
    simp only [bread, post_bind, post_get, post_pure]
    rw [← hk]
    generalize eitherCopyin src (s1.block a) (off % BSIZE) tot k = copy
    obtain ⟨data, ok⟩ := copy
    simp only [setData, post_modify]
    cases ok with
    | true =>
      simp only [↓reduceIte, logWrite, post_bind, post_modify]
      have hwrite : load d1 ⟨update s1.block a data, a :: s1.logged⟩ ≤ load d s+2 :=
        hspent.write hz rfl
      refine post_imp (ih (by omega)) ?_
      intro r s' hr
      omega
    | false =>
      simp only [Bool.false_eq_true, ↓reduceIte, post_pure]
      have hsame : load d1 ⟨update s1.block a data, s1.logged⟩ = load d1 s1 :=
        load_congr rfl rfl
      omega

/-- When the first of these blocks is there already, the loop spends one block less. -/
theorem writeLoop_logs_mapped (hn : 0 < n) (hend : off+n ≤ MAXFILE*BSIZE)
    (hz : slotAddr s.block d (bnSlot (off/BSIZE)) ≠ 0) :
    post (writeLoop sb src n d 0 off n) s (fun r s' =>
      load r.2.2 s'+1 ≤ load d s+2*blocksOf off n) never := by
  obtain ⟨fuel, hfuel⟩ : ∃ fuel, n = fuel+1 := ⟨n-1, by omega⟩
  obtain ⟨k, hk⟩ : ∃ k, k = min (n-0) (BSIZE-off % BSIZE) := ⟨_, rfl⟩
  have hstep := blocksOf_step off hn hk
  nth_rewrite 1 [hfuel]
  unfold writeLoop
  rw [if_pos hn]
  apply post_bind_of (bmap_mapped hz (block_lt_maxfile (by omega)))
  rintro r s' ⟨rfl, rfl⟩
  dsimp only
  rw [if_neg hz]
  simp only [bread, post_bind, post_get, post_pure]
  rw [← hk]
  generalize eitherCopyin src _ (off % BSIZE) 0 k = copy
  obtain ⟨data, ok⟩ := copy
  obtain ⟨a, ha⟩ : ∃ a, a = slotAddr s'.block d (bnSlot (off/BSIZE)) := ⟨_, rfl⟩
  rw [← ha]
  simp only [setData, post_modify]
  cases ok with
  | true =>
    simp only [↓reduceIte, logWrite, post_bind, post_modify]
    have hlogged : load d ⟨update s'.block a data, a :: s'.logged⟩ ≤ load d s'+1 :=
      load_logged rfl
    refine post_imp (writeLoop_logs fuel (by omega)) ?_
    intro r s1 hr
    rw [Nat.zero_add] at hr
    omega
  | false =>
    simp only [Bool.false_eq_true, ↓reduceIte, post_pure]
    have hsame : load d ⟨update s'.block a data, s'.logged⟩ = load d s' :=
      load_congr rfl rfl
    omega

theorem iupdate_logs : post (iupdate sb inum d) s (fun _ s' => s'.logCount ≤ s.logCount+1)
    never := by
  simp only [iupdate, bread, setData, logWrite, post_bind, post_get, post_modify, post_pure,
    Store.logCount, List.toFinset_cons]
  exact Finset.card_insert_le _ _

theorem blocksOf_chunk (off : ℕ) (hn : n ≤ filewriteMax) :
    blocksOf off n ≤ 4 ∧ (off % BSIZE = 0 → blocksOf off n ≤ 3) := by
  have hmax : filewriteMax = 3072 := rfl
  unfold blocksOf
  rw [BSIZE]
  split_ifs <;> omega

/-- The loop of `writei` for a chunk of `filewrite`.  A first block that is not written from its
beginning is there already, as the file has no holes. -/
theorem writeLoop_chunk {B : ℕ → Block} (hd : Whole B d) (hoff : off ≤ d.size)
    (hn : n ≤ filewriteMax) (hend : off+n ≤ MAXFILE*BSIZE) :
    post (writeLoop sb src n d 0 off n) ⟨B, []⟩ (fun r s' => load r.2.2 s' ≤ 9)
      never := by
  obtain ⟨hfour, hthree⟩ := blocksOf_chunk off hn
  have hstart := load_start (d := d) B
  by_cases haligned : off % BSIZE = 0
  · refine post_imp (writeLoop_logs n (by omega)) ?_
    intro r s' hr
    rw [Nat.sub_zero] at hr
    omega
  · by_cases hzero : n = 0
    · rw [hzero]
      exact hstart.trans (by decide)
    · have hz := hd.full (off/BSIZE) (by rw [BSIZE] at haligned ⊢; omega)
      refine post_imp (writeLoop_logs_mapped (by omega) hend hz) ?_
      intro r s' hr
      omega

/-- The `writei` of one turn of the loop in `filewrite` passes no more than `MAXOPBLOCKS` blocks to
`log_write`. -/
theorem filewrite_chunk_fits (sb : Superblock) (B : ℕ → Block) (inum : ℕ) (d : Dinode) (src : Src)
    (off n : ℕ) (hd : Whole B d) (hoff : off ≤ d.size) (hn : n ≤ filewriteMax) :
    post (writei sb inum d src off n) ⟨B, []⟩ (fun _ s' => s'.logged.toFinset.card ≤ MAXOPBLOCKS)
      (fun _ _ => False) := by
  have hempty : ([] : List ℕ).toFinset.card ≤ MAXOPBLOCKS := by simp
  unfold writei
  split_ifs with hout hbig
  · exact hempty
  · exact hempty
  · apply post_bind_of (writeLoop_chunk hd hoff hn (by omega))
    rintro ⟨tot, off', d1⟩ s1 hload
    apply post_bind_of iupdate_logs
    intro _ s2 hlog
    have hle := logCount_le_load (d := d1) (s := s1)
    calc
      s2.logCount ≤ s1.logCount+1 := hlog
      _ ≤ load d1 s1+1 := Nat.add_le_add_right hle 1
      _ ≤ 9+1 := Nat.add_le_add_right hload 1
      _ = MAXOPBLOCKS := rfl

/-- The disk after `m` has run. -/
def Store.after {α : Type} (s : Store) (m : M α) : Store :=
  match m s with
  | .ok _ s' => s'
  | .error _ s' => s'

theorem Store.after_of_post {α : Type} {m : M α} {Q : Store → Prop}
    (h : post m s (fun _ s' => Q s') never) : Q (s.after m) := by
  rw [post] at h
  unfold Store.after
  split at h
  · next hrun =>
    rw [hrun]
    exact h
  · exact h.elim

theorem Store.after_writei (hsb : sb.Ok) (hin : inum < sb.ninodes) (s : Store)
    (hc : Consistent sb s.block (dinodeOf sb s.block)) (ht : (dinodeOf sb s.block inum).type ≠ 0)
    (hw : Whole s.block (dinodeOf sb s.block inum)) (bytes : Mem)
    (hoff : off ≤ (dinodeOf sb s.block inum).size) (hend : off+n ≤ MAXFILE*BSIZE) {s' : Store}
    (hs : s.after (writei sb inum (dinodeOf sb s.block inum) (.kernel bytes) off n) = s') :
    Consistent sb s'.block (dinodeOf sb s'.block) ∧ Whole s'.block (dinodeOf sb s'.block inum) := by
  rw [← hs]
  refine Store.after_of_post (Q := fun s' => Consistent sb s'.block (dinodeOf sb s'.block) ∧
    Whole s'.block (dinodeOf sb s'.block inum)) ?_
  refine post_imp (writei_right hsb hin hc ht hw trivial hoff hend) ?_
  rintro r s' ⟨k, _, hright⟩
  rw [hright.stored]
  exact ⟨hright.consistent, hright.whole⟩

/-- A disk with a file of 11776 bytes, up to the middle of its last direct block. -/
def halfBlock : Store :=
  Store.after ⟨freshDisk, []⟩
    (writei smallDisk 1 (dinodeOf smallDisk freshDisk 1) (.kernel fun _ => 97) 0 11776)

theorem halfBlock_consistent :
    Consistent smallDisk halfBlock.block (dinodeOf smallDisk halfBlock.block) ∧
    Whole halfBlock.block (dinodeOf smallDisk halfBlock.block 1) :=
  Store.after_writei smallDisk_ok (by decide) ⟨freshDisk, []⟩ freshDisk_consistent freshDisk_type
    freshDisk_whole (fun _ => 97) (Nat.zero_le _) (by decide) rfl

/-- The same with a chunk from byte 11700 on: it takes the indirect block and three blocks more. -/
def chunkMore : Store :=
  Store.after ⟨halfBlock.block, []⟩ (writei smallDisk 1 (dinodeOf smallDisk halfBlock.block 1)
    (.kernel fun _ => 98) 11700 filewriteMax)

theorem filewrite_chunk_fits_halfBlock :
    Consistent smallDisk halfBlock.block (dinodeOf smallDisk halfBlock.block) ∧
    Whole halfBlock.block (dinodeOf smallDisk halfBlock.block 1) ∧
    11700 ≤ (dinodeOf smallDisk halfBlock.block 1).size ∧
    chunkMore.logged.toFinset.card ≤ MAXOPBLOCKS ∧
    chunkMore.logged.toFinset = {33, 46, 58, 59, 60, 61, 62} := by
  obtain ⟨hcons, hwhole⟩ := halfBlock_consistent
  have hsize : 11700 ≤ (dinodeOf smallDisk halfBlock.block 1).size := by decide +kernel
  have hlogged : chunkMore.logged.toFinset = {33, 46, 58, 59, 60, 61, 62} := by decide +kernel
  have hchunk (B : ℕ → Block) (d : Dinode) (hd : Whole B d) (hoff : 11700 ≤ d.size) :
      (Store.after ⟨B, []⟩ (writei smallDisk 1 d (.kernel fun _ => 98) 11700
        filewriteMax)).logged.toFinset.card ≤ MAXOPBLOCKS :=
    Store.after_of_post (Q := fun s' => s'.logged.toFinset.card ≤ MAXOPBLOCKS)
      (filewrite_chunk_fits smallDisk B 1 d (.kernel fun _ => 98) 11700 filewriteMax hd hoff le_rfl)
  exact ⟨hcons, hwhole, hsize, hchunk _ _ hwhole hsize, hlogged⟩

end Xv6.BlockFs
