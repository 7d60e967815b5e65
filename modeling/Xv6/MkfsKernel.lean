import Mathlib.Data.List.TakeWhile
import Xv6.BlockGrowth
import Xv6.MkfsImage

/-! The kernel finds every file of an image by its name in the root directory and reads its bytes,
and takes exactly the blocks behind those of the files as free. -/
namespace Xv6
open ByteFields StateOutcome BlockFs Function

/-! ## Directories -/

/-- The first `K` entries of a directory. -/
structure DirHas (B : ℕ → Block) (d : Dinode) (K : ℕ) (E : ℕ → Name × ℕ) : Prop where
  size : DIRENTSIZE*K ≤ d.size
  max : DIRENTSIZE*K ≤ MAXFILE*BSIZE
  full : ∀ bn, bn*BSIZE < DIRENTSIZE*K → slotAddr B d (bnSlot bn) ≠ 0
  bytes : ∀ k < K, ∀ j < DIRENTSIZE, fileByte B d (DIRENTSIZE*k+j) = direntBytes (E k).1 (E k).2 j
  names : ∀ k < K, (E k).1.length ≤ DIRSIZ ∧ ∀ c ∈ (E k).1, c ≠ 0
  inums : ∀ k < K, (E k).2 < 2^16

section Directories
variable (sb : Superblock) {s : Store} {d : Dinode} {E : ℕ → Name × ℕ} {K m : ℕ}
  (h : DirHas s.block d K E)
include h

theorem DirHas.entry {k : ℕ} (hk : k < K) :
    memmove (fun _ => 0) 0 (fun j => fileByte s.block d (DIRENTSIZE*k+j)) DIRENTSIZE =
      direntBytes (E k).1 (E k).2 := by
  funext j
  have hlen := (h.names k hk).1
  unfold memmove
  split_ifs with hj
  · exact h.bytes k hk j hj.2
  · have hout : DIRENTSIZE ≤ j := by omega
    rw [DIRENTSIZE] at hout
    rw [DIRSIZ] at hlen
    rw [direntBytes, if_neg (by omega), List.getD_eq_default _ _ (by omega)]

theorem dirlookupFrom_finds (hm : m < K) (hz : (E m).2 ≠ 0) (hfirst : ∀ k < m, (E k).1 ≠ (E m).1)
    (n : ℕ) {k : ℕ} (hk : k ≤ m) (hn : m < k+n) :
    post (dirlookupFrom sb (E m).1 n (DIRENTSIZE*k) d) s
      (fun r s' => r = (some ((E m).2, DIRENTSIZE*m), d) ∧ s' = s) never := by
  induction n generalizing k with
  | zero => omega
  | succ n ih =>
    have hkK : k < K := Nat.lt_of_le_of_lt hk hm
    have hend := Nat.mul_le_mul_left DIRENTSIZE hkK
    refine post_bind_of (readi_inside (hend.trans h.size) (hend.trans h.max)
      fun bn hbn => h.full bn (Nat.lt_of_lt_of_le hbn hend)) ?_
    rintro _ _ ⟨rfl, rfl⟩
    dsimp only
    rw [if_neg (fun hne => hne rfl), h.entry hkK, direntInum_direntBytes _ (h.inums k hkK),
      direntName_direntBytes _ (h.names k hkK).1 (h.names k hkK).2]
    by_cases hhere : k = m
    · rw [hhere, if_pos ⟨hz, rfl⟩]
      exact ⟨rfl, rfl⟩
    · rw [if_neg fun hsame => hfirst k (by omega) hsame.2]
      exact ih (k := k+1) (by omega) (by omega)

end Directories

theorem pathElems_single {name : Name} (hne : name ≠ []) (hlen : name.length ≤ DIRSIZ)
    (hslash : slash ∉ name) : pathElems (slash :: name).length (slash :: name) = [name] := by
  have hskip : (slash :: name).dropWhile (· = slash) = name := by
    cases name with
    | nil => rfl
    | cons c rest =>
      have hc : ¬c = slash := fun hc => hslash (hc ▸ List.mem_cons_self)
      simp [hc]
  have hall : ∀ c ∈ name, decide (c ≠ slash) = true := fun c hc =>
    decide_eq_true fun he => hslash (he ▸ hc)
  have hrest : pathElems name.length [] = [] := by
    cases name.length <;> rfl
  rw [List.length_cons, pathElems, skipelem, hskip, if_neg hne, List.takeWhile_eq_self_iff.mpr hall,
    List.dropWhile_eq_nil_iff.mpr hall, List.take_of_length_le hlen]
  exact congrArg (name :: ·) hrest

theorem namei_finds (sb : Superblock) {s : Store} {E : ℕ → Name × ℕ} {K m : ℕ}
    (h : DirHas s.block (dinodeOf sb s.block ROOTINO) K E)
    (ht : (dinodeOf sb s.block ROOTINO).type = T_DIR) (hm : m < K) (hz : (E m).2 ≠ 0)
    (hfirst : ∀ k < m, (E k).1 ≠ (E m).1) (hne : (E m).1 ≠ []) (hslash : slash ∉ (E m).1) :
    post (namei sb (slash :: (E m).1)) s (fun r s' => r = some (E m).2 ∧ s' = s)
      never := by
  have hentries : m < 0+((dinodeOf sb s.block ROOTINO).size+DIRENTSIZE-1)/DIRENTSIZE := by
    have hsize := h.size
    rw [DIRENTSIZE] at *
    omega
  have hfind := dirlookupFrom_finds sb h hm hz hfirst _ (Nat.zero_le m) hentries
  have hread : post (readDinode sb ROOTINO) s
      (fun d s' => d = dinodeOf sb s.block ROOTINO ∧ s' = s) never := ⟨rfl, rfl⟩
  rw [namei, pathElems_single hne (h.names m hm).1 hslash]
  refine post_bind_of hread ?_
  rintro _ _ ⟨rfl, rfl⟩
  rw [ht, if_neg (by decide), dirlookup, if_pos ht]
  refine post_bind_of hfind ?_
  rintro _ _ ⟨rfl, rfl⟩
  exact ⟨rfl, rfl⟩

namespace Mkfs

/-! ## The root directory -/

def rootEntry (files : List Input) : ℕ → Name × ℕ
  | 0 => (dot, ROOTINO)
  | 1 => (dotdot, ROOTINO)
  | k+2 => ((files.map Input.shortname).getD k [], k+2)

theorem length_dirent (name : Name) (inum : ℕ) : (dirent name inum).length = DIRENTSIZE := by
  rw [dirent, List.length_map, List.length_range]

variable {j : ℕ}

theorem dirent_byte (name : Name) (inum : ℕ) (rest : List UInt8) (hj : j < DIRENTSIZE) :
    (dirent name inum++rest).getD j 0 = direntBytes name inum j := by
  rw [List.getD_append _ _ _ _ (by rwa [length_dirent]), dirent, List.getD_eq_getElem _ _ (by simpa),
    List.getElem_map, List.getElem_range]

theorem behind_dirent (name : Name) (inum : ℕ) (rest : List UInt8) (x : ℕ) :
    (dirent name inum++rest).getD (DIRENTSIZE+x) 0 = rest.getD x 0 := by
  rw [List.getD_append_right _ _ _ _ (by rw [length_dirent]; omega), length_dirent,
    Nat.add_sub_cancel_left]

theorem entriesFrom_byte (files : List Input) (n : ℕ) {k : ℕ} (hk : k < files.length)
    (hj : j < DIRENTSIZE) : (entriesFrom n files).getD (DIRENTSIZE*k+j) 0 =
      direntBytes ((files.map Input.shortname).getD k []) (n+k) j := by
  induction files generalizing n k with
  | nil => cases hk
  | cons f files ih =>
    rw [entriesFrom]
    cases k with
    | zero =>
      rw [Nat.mul_zero, Nat.zero_add]
      exact dirent_byte _ _ _ hj
    | succ k =>
      rw [Nat.mul_succ, Nat.add_comm _ DIRENTSIZE, Nat.add_assoc, behind_dirent,
        ih (n+1) (Nat.lt_of_succ_lt_succ hk), Nat.add_right_comm]
      rfl

theorem rootBytes_byte (files : List Input) {k : ℕ} (hk : k < files.length+2)
    (hj : j < DIRENTSIZE) : (rootBytes files).getD (DIRENTSIZE*k+j) 0 =
      direntBytes (rootEntry files k).1 (rootEntry files k).2 j := by
  rw [rootBytes, List.append_assoc]
  rcases k with _ | _ | k
  · rw [Nat.mul_zero, Nat.zero_add]
    exact dirent_byte _ _ _ hj
  · rw [Nat.mul_one, behind_dirent]
    exact dirent_byte _ _ _ hj
  · have hoff : DIRENTSIZE*(k+2)+j = DIRENTSIZE+(DIRENTSIZE+(DIRENTSIZE*k+j)) := by ring
    rw [hoff, behind_dirent, behind_dirent, entriesFrom_byte files 2 (by omega) hj, Nat.add_comm 2]
    rfl

theorem Input.shortname_subset (f : Input) : f.shortname ⊆ f.plain := by
  unfold shortname
  split_ifs
  · exact List.tail_subset _
  · exact List.Subset.refl _

theorem Input.shortname_ne (f : Input) : ∀ c ∈ f.shortname, c ≠ 0 := by
  intro c hc
  have hplain := f.shortname_subset hc
  unfold plain at hplain
  split_ifs at hplain
  · exact f.arg_ne c (List.mem_of_mem_drop hplain)
  · exact f.arg_ne c hplain

/-! ## What the kernel finds -/

section Kernel
variable {files : List Input} {s : Image} (h : Holds (layout files) s)
include h

theorem finished_root : dinodeOf cap (finished s).block ROOTINO =
    roundedRoot (dinodeOf cap s.block ROOTINO) := by
  rw [finished_inode h (by decide), if_pos rfl]

theorem finished_byte {i : ℕ} {f : ℕ × List UInt8} (hi : (layout files)[i]? = some f) {x : ℕ}
    (hx : x < f.2.length) : fileByte (finished s).block (dinodeOf cap (finished s).block (i+1)) x =
      f.2.getD x 0 := by
  have hfile := h.files i f hi
  have hn : i+1 < cap.ninodes := by
    have := (List.getElem?_eq_some_iff.mp hi).1
    have := h.few
    omega
  have ht : (dinodeOf cap s.block (i+1)).type ≠ 0 := (h.type_iff hn).mpr ⟨i, f, rfl, hi⟩
  have hz : slotAddr s.block (dinodeOf cap s.block (i+1)) (bnSlot (x/BSIZE)) ≠ 0 :=
    (hfile.blocks.block _ (block_lt_maxfile (Nat.lt_of_lt_of_le hx hfile.small))).mpr
      (block_start_lt hx)
  rw [← hfile.contents x hx, fileByte, fileByte, finished_slot h hn ht,
    finished_data (h.disk.owned.ranged _ hn ht _ hz)]

theorem root_has (hlen : ∀ f ∈ files, f.shortname.length ≤ DIRSIZ) :
    DirHas (finished s).block (dinodeOf cap (finished s).block ROOTINO) (files.length+2)
      (rootEntry files) := by
  have hfew := h.few
  rw [layout, List.length_cons, List.length_map, cap_ninodes] at hfew
  have hmax : MAXFILE*BSIZE = 274432 := rfl
  have hsmall : DIRENTSIZE*(files.length+2) ≤ MAXFILE*BSIZE := by
    rw [DIRENTSIZE]
    omega
  have hname (k : ℕ) : (rootEntry files k).1 = dot ∨ (rootEntry files k).1 = dotdot ∨
      (rootEntry files k).1 = [] ∨ ∃ f ∈ files, (rootEntry files k).1 = f.shortname := by
    rcases k with _ | _ | k
    · exact .inl rfl
    · exact .inr (.inl rfl)
    · by_cases hk : k < files.length
      · refine .inr (.inr (.inr ⟨files[k], List.getElem_mem hk, ?_⟩))
        simp [rootEntry, hk]
      · refine .inr (.inr (.inl ?_))
        exact List.getD_eq_default _ _ (by simpa using hk)
  refine ⟨?_, hsmall, ?_, ?_, ?_, ?_⟩
  · rw [finished_root h, rounded_size h, Nat.mul_comm _ BSIZE]
    exact Nat.le_of_lt (Nat.lt_mul_div_succ _ (by decide))
  · intro bn hbn
    exact (root_slot h bn (Nat.lt_of_mul_lt_mul_right (Nat.lt_of_lt_of_le hbn hsmall))).mpr hbn
  · intro k hk j hj
    have hx : DIRENTSIZE*k+j < (rootBytes files).length := by
      rw [length_rootBytes]
      calc DIRENTSIZE*k+j < DIRENTSIZE*(k+1) := by rw [Nat.mul_succ]; omega
        _ ≤ DIRENTSIZE*(files.length+2) := Nat.mul_le_mul_left _ hk
    rw [← rootBytes_byte files hk hj]
    exact finished_byte h (i := 0) (f := (T_DIR, rootBytes files)) rfl hx
  · intro k _
    obtain he | he | he | ⟨f, hf, he⟩ := hname k
    · rw [he]
      exact ⟨by decide, dot_nul⟩
    · rw [he]
      exact ⟨by decide, dotdot_nul⟩
    · rw [he]
      exact ⟨Nat.zero_le _, List.forall_mem_nil _⟩
    · rw [he]
      exact ⟨hlen f hf, f.shortname_ne⟩
  · intro k hk
    rcases k with _ | _ | k
    · exact (by decide : ROOTINO < 2^16)
    · exact (by decide : ROOTINO < 2^16)
    · change k+2 < 2^16
      omega

theorem finished_marked {b : ℕ} (hb : b < sb.size) :
    marked sb (finished s).block b = true ↔ b < s.freeblock := by
  have hbits (n : ℕ) (hn : n ≤ BPB) : getBit (firstBits n) b = decide (b < n) := by
    induction n with
    | zero => simp [firstBits, getBit, get8, zeroBlock]
    | succ n ih =>
      rw [firstBits, getBit_setBit _ _ _ hn, ih (by omega), ← Bool.decide_or]
      exact decide_eq_decide.mpr (by omega)
  have hlt : b < BPB := Nat.lt_trans hb (by decide)
  have hblock : sb.bblock b = sb.bmapstart := by
    change b/BPB+sb.bmapstart = sb.bmapstart
    rw [Nat.div_eq_of_lt hlt, Nat.zero_add]
  have hlast : s.freeblock ≤ BPB := h.disk.last.trans (by decide)
  rw [marked, hblock, Nat.mod_eq_of_lt hlt, finished]
  dsimp only
  rw [update_self, hbits _ hlast, decide_eq_true_iff]

/-- The bitmap has the metadata blocks and the blocks of the inodes. -/
theorem finished_bitmap (hfew : files.length ≤ NINODES-2) {b : ℕ} (hb : b < sb.size) :
    marked sb (finished s).block b = true ↔ b < nmeta ∨
      ∃ n < sb.ninodes, (dinodeOf sb (finished s).block n).type ≠ 0 ∧
        ∃ x, slotAddr (finished s).block (dinodeOf sb (finished s).block n) x = b := by
  have htype {n : ℕ} (hn : n < cap.ninodes) : (dinodeOf cap (finished s).block n).type =
      (dinodeOf cap s.block n).type := by
    rw [finished_inode h hn]
    split_ifs with hroot
    · rw [hroot]
      rfl
    · rfl
  have hfirst := h.disk.first
  rw [finished_marked h hb]
  constructor
  · intro hlt
    by_cases hmeta : b < nmeta
    · exact .inl hmeta
    obtain ⟨n, hn, ht, x, hx⟩ := h.disk.covered b (Nat.le_of_not_lt hmeta) hlt
    refine .inr ⟨n, ?_, ?_, x, ?_⟩
    · obtain ⟨i, f, rfl, hi⟩ := (h.type_iff hn).mp ht
      have hlen := (List.getElem?_eq_some_iff.mp hi).1
      rw [layout, List.length_cons, List.length_map] at hlen
      change i+1 < 200
      rw [NINODES] at hfew
      omega
    · exact fun hz => ht ((htype hn).symm.trans hz)
    · exact (finished_slot h hn ht x).trans hx
  · rintro (hmeta | ⟨n, hn, ht, x, hx⟩)
    · exact Nat.lt_of_lt_of_le hmeta hfirst
    · have hn' : n < cap.ninodes := Nat.lt_trans hn (by decide)
      have ht' : (dinodeOf cap s.block n).type ≠ 0 := fun hz => ht ((htype hn').trans hz)
      have hx' := (finished_slot h hn' ht' x).symm.trans hx
      by_cases hz : b = 0
      · rw [hz]
        exact Nat.lt_of_lt_of_le (by decide) hfirst
      · rw [← hx']
        exact h.disk.owned.used n hn' ht' x (by rwa [hx'])

end Kernel

theorem getSuperblock_superBlock : getSuperblock superBlock = sb := by rfl

/-- The file `d` is these bytes: so says its size, and every read delivers the part that it asks for. -/
def Reads (B : ℕ → Block) (d : Dinode) (bytes : List UInt8) : Prop :=
  d.size = bytes.length ∧ ∀ dst mem va off n, post (BlockFs.readi sb d dst mem va off n) ⟨B, []⟩
    (fun r s => s = ⟨B, []⟩ ∧ (dst.Takes va (readCount d off n) → r.1 = some (readCount d off n) ∧
      r.2.1 = memmove mem va (fun k => bytes.getD (off+k) 0) (readCount d off n)))
    (fun _ _ => False)

/-- The kernel finds file `f` by its name, and reads its bytes. -/
def Found (B : ℕ → Block) (f : Input) : Prop :=
  ∃ inum, post (namei sb (slash :: f.shortname)) ⟨B, []⟩
      (fun r s => r = some inum ∧ s = ⟨B, []⟩) (fun _ _ => False) ∧
    Reads B (dinodeOf sb B inum) f.bytes

theorem finished_read {files : List Input} {s : Image} (h : Holds (layout files) s) {i : ℕ}
    {bytes : List UInt8} (hi : (layout files)[i+1]? = some (T_FILE, bytes)) :
    Reads (finished s).block (dinodeOf cap (finished s).block (i+2)) bytes := by
  have hfile := h.files (i+1) _ hi
  have hn : i+2 < cap.ninodes := by
    have := (List.getElem?_eq_some_iff.mp hi).1
    have := h.few
    omega
  have hsame : dinodeOf cap (finished s).block (i+2) = dinodeOf cap s.block (i+2) := by
    rw [finished_inode h hn, if_neg (by rw [ROOTINO]; omega)]
  have ht := (h.type_iff hn).mpr ⟨i+1, _, rfl, hi⟩
  have hsize : (dinodeOf cap (finished s).block (i+2)).size = bytes.length := by
    rw [hsame, hfile.fields]
  have hwhole : Whole (finished s).block (dinodeOf cap (finished s).block (i+2)) := by
    refine ⟨hsize ▸ hfile.small, fun bn hbn => ?_⟩
    rw [hsize] at hbn
    rw [finished_slot h hn ht]
    exact (hfile.blocks.block bn
      (Nat.lt_of_mul_lt_mul_right (Nat.lt_of_lt_of_le hbn hfile.small))).mpr hbn
  refine ⟨hsize, fun dst mem va off n => ?_⟩
  refine post_imp (readi_delivers (s := ⟨(finished s).block, []⟩) hwhole off n) ?_
  rintro ⟨r, mem', d'⟩ s' ⟨rfl, -, hdel⟩
  refine ⟨rfl, fun htakes => ?_⟩
  obtain ⟨t, _, hmem, hcase⟩ := hdel.stored
  obtain ⟨hr, rfl⟩ := hcase.resolve_left (hdel.takes htakes)
  refine ⟨hr, hmem.trans ?_⟩
  funext a
  unfold memmove
  split_ifs with ha
  · refine finished_byte h hi (x := off+(a-va)) ?_
    have hcount := ha.2
    rw [← hsize]
    unfold readCount at hcount
    split_ifs at hcount <;> omega
  · rfl

theorem finished_found {files : List Input} {s : Image} (h : Holds (layout files) s)
    (hnamed : ∀ f ∈ files, f.Named)
    (hnames : ∀ f ∈ files, f.shortname ≠ [] ∧ f.shortname ≠ dot ∧ f.shortname ≠ dotdot)
    (hdistinct : (files.map Input.shortname).Nodup) {f : Input} (hf : f ∈ files) :
    Found (finished s).block f := by
  obtain ⟨i, hi, rfl⟩ := List.mem_iff_getElem.mp hf
  have hlen (k : ℕ) (hk : k < files.length) : (rootEntry files (k+2)).1 = files[k].shortname := by
    simp [rootEntry, hk]
  have hfirst : ∀ k < i+2, (rootEntry files k).1 ≠ (rootEntry files (i+2)).1 := by
    intro k hk
    rw [hlen i hi]
    rcases k with _ | _ | k
    · exact (hnames _ hf).2.1.symm
    · exact (hnames _ hf).2.2.symm
    · rw [hlen k (by omega)]
      intro he
      have hne := List.nodup_iff_getElem?_ne_getElem?.mp hdistinct k i (by omega) (by simpa using hi)
      rw [List.getElem?_map, List.getElem?_map, List.getElem?_eq_getElem hi,
        List.getElem?_eq_getElem (by omega)] at hne
      exact hne (congrArg some he)
  have hroot : (dinodeOf sb (finished s).block ROOTINO).type = T_DIR := by
    change (dinodeOf cap (finished s).block ROOTINO).type = T_DIR
    rw [finished_root h, (h.files 0 _ rfl).fields]
    rfl
  have hfind := namei_finds sb (s := ⟨(finished s).block, []⟩) (m := i+2)
    (root_has h fun f hf => (hnamed f hf).2) hroot (by omega) (Nat.succ_ne_zero _) hfirst
  rw [hlen i hi] at hfind
  refine ⟨i+2, hfind (hnames _ hf).1 fun hs => (hnamed _ hf).1 (Input.shortname_subset _ hs), ?_⟩
  refine finished_read h ?_
  rw [layout, List.getElem?_cons_succ, List.getElem?_map, List.getElem?_eq_getElem hi]
  rfl

/-- The kernel reads the superblock of mkfs and finds every file by its name, and the bitmap marks the
metadata and the blocks of the inodes; mkfs dies only if there is a slash in a name. -/
theorem mkfs_kernel_agree (files : List Input) (hfew : files.length ≤ NINODES-2)
    (hfit : (layout files).Fit)
    (hnames : ∀ f ∈ files, f.shortname ≠ [] ∧ f.shortname.length ≤ DIRSIZ ∧ f.shortname ≠ dot ∧
      f.shortname ≠ dotdot) (hdistinct : (files.map Input.shortname).Nodup) :
    post (main files) start
      (fun _ s => getSuperblock (s.block 1) = sb ∧ (∀ f ∈ files, Found s.block f) ∧
        ∀ b < sb.size, marked sb s.block b = true ↔ b < nmeta ∨
          ∃ n < sb.ninodes, (dinodeOf sb s.block n).type ≠ 0 ∧
            ∃ x, slotAddr s.block (dinodeOf sb s.block n) x = b)
      (fun _ _ => ∃ f ∈ files, slash ∈ f.plain) := by
  have hlt : files.length+1 < cap.ninodes := by
    rw [NINODES] at hfew
    rw [cap_ninodes]
    omega
  refine post_mono (main_makes files hlt) ?_ ?_
  · rintro _ _ ⟨s, h, hnamed, rfl⟩
    refine ⟨?_, fun f hf => ?_, fun b => finished_bitmap h hfew⟩
    · rw [finished, iupdated]
      dsimp only
      rw [update_of_ne (by decide), update_of_ne (by decide), h.super]
      exact getSuperblock_superBlock
    · exact finished_found h hnamed (fun f hf => ⟨(hnames f hf).1, (hnames f hf).2.2⟩) hdistinct hf
  · intro _ _ hbad
    obtain ⟨f, hf, hn⟩ := hbad.resolve_right fun hbig => hbig hfit
    refine ⟨f, hf, ?_⟩
    by_contra hslash
    exact hn ⟨hslash, (hnames f hf).2.1⟩

theorem mkfs_kernel_agree_two : (layout twoInputs).Fit ∧ catInput.shortname = [99, 97, 116] ∧
    longInput.shortname.length = DIRSIZ ∧ catInput.bytes.length = 1536 ∧
    longInput.bytes.length = 13412 ∧
    ∃ s, main twoInputs start = .ok () s ∧ getSuperblock (s.block 1) = sb ∧
      Found s.block catInput ∧ Found s.block longInput ∧
      ∀ b < sb.size, marked sb s.block b = true ↔ b < nmeta ∨
        ∃ n < sb.ninodes, (dinodeOf sb s.block n).type ≠ 0 ∧
          ∃ x, slotAddr s.block (dinodeOf sb s.block n) x = b := by
  have hnames : ∀ f ∈ twoInputs, f.shortname ≠ [] ∧ f.shortname.length ≤ DIRSIZ ∧
      f.shortname ≠ dot ∧ f.shortname ≠ dotdot := by
    simp only [twoInputs, List.forall_mem_cons]
    exact ⟨by decide, by decide, fun f hf => absurd hf List.not_mem_nil⟩
  have hdistinct : (twoInputs.map Input.shortname).Nodup := by decide
  obtain ⟨_, s, hrun, hsuper, hfound, hbitmap⟩ := exists_ok (post_errors
    (mkfs_kernel_agree twoInputs (by decide) twoInputs_fit hnames hdistinct) fun _ _ ⟨f, hf, hs⟩ =>
      (twoInputs_named f hf).1 hs)
  exact ⟨twoInputs_fit, by decide, by decide, catInput_length, longInput_length, s, hrun, hsuper,
    hfound _ List.mem_cons_self, hfound _ (List.mem_cons_of_mem _ List.mem_cons_self), hbitmap⟩

end Mkfs
end Xv6
