import Xv6.MkfsFiles

/-! `main` writes a root directory with an entry for each file and the files themselves, or dies;
then it rounds up the size of the directory. Nothing compares `freeinode` with the number of inodes,
and the rounding adds a block that is not there if the entries end with a block. -/
namespace Xv6.Mkfs
open ByteFields StateOutcome Function

/-! ## The files in the order in which they are added -/

def Files.appendReads (L : Files) (i : ℕ) (reads : List (List UInt8)) : Files :=
  reads.foldl (fun L r => L.append i r) L

/-- A file is added, and its entry to the root directory, which is the first of the list. -/
def Files.add (L : Files) (f : Input) : Files :=
  (append (L++[(T_FILE, [])]) 0 (dirent f.shortname (L.length+1))).appendReads L.length f.reads

def Files.addAll (L : Files) (fs : List Input) : Files := fs.foldl add L

def entriesFrom : ℕ → List Input → List UInt8
  | _, [] => []
  | n, f :: rest => dirent f.shortname n++entriesFrom (n+1) rest

def rootBytes (fs : List Input) : List UInt8 :=
  dirent dot ROOTINO++dirent dotdot ROOTINO++entriesFrom 2 fs

def layout (fs : List Input) : Files :=
  (T_DIR, rootBytes fs) :: fs.map fun f => (T_FILE, f.bytes)

def Input.Named (f : Input) : Prop := slash ∉ f.plain ∧ f.shortname.length ≤ DIRSIZ

namespace Files
variable {L : Files} {i : ℕ} {f : ℕ × List UInt8} {t : ℕ} {b r : List UInt8}

theorem append_snoc (A : Files) : append (A++[(t, b)]) A.length r = A++[(t, b++r)] := by
  induction A with
  | nil => rfl
  | cons g A ih =>
    exact congrArg (g :: ·) ih

theorem appendReads_snoc (A : Files) (reads : List (List UInt8)) :
    appendReads (A++[(t, b)]) A.length reads = A++[(t, b++reads.flatten)] := by
  induction reads generalizing b with
  | nil => simp [appendReads]
  | cons r reads ih =>
    rw [appendReads, List.foldl_cons, append_snoc]
    exact ih.trans (by rw [List.flatten_cons, List.append_assoc])

theorem add_cons (g : Input) : add ((t, b) :: L) g =
    (t, b++dirent g.shortname (L.length+2)) :: (L++[(T_FILE, g.bytes)]) := by
  exact appendReads_snoc ((t, b++dirent g.shortname (L.length+2)) :: L) g.reads

theorem addAll_cons (fs : List Input) : addAll ((t, b) :: L) fs =
    (t, b++entriesFrom (L.length+2) fs) :: (L++fs.map fun f => (T_FILE, f.bytes)) := by
  induction fs generalizing b L with
  | nil => simp [addAll, entriesFrom]
  | cons g fs ih =>
    rw [addAll, List.foldl_cons, add_cons]
    refine ih.trans ?_
    rw [entriesFrom, List.length_append, List.length_singleton, List.map_cons, List.append_assoc,
      List.append_assoc]
    rfl

theorem getElem?_appendReads (hi : L[i]? = some f) (reads : List (List UInt8)) {j : ℕ} (hj : j ≠ i) :
    (L.appendReads i reads)[j]? = L[j]? := by
  induction reads generalizing L f with
  | nil => rfl
  | cons r reads ih => exact (ih (append_get hi r)).trans (append_get_other hj)

theorem Fit.of_appendReads (hi : L[i]? = some f) {reads : List (List UInt8)}
    (h : (L.appendReads i reads).Fit) : L.Fit := by
  induction reads generalizing L f with
  | nil => exact h
  | cons r reads ih => exact (ih (append_get hi r) h).of_append hi

theorem Fit.of_snoc (h : Fit (L++[(t, [])])) : L.Fit := by
  refine ⟨fun g hg => h.1 g (List.mem_append_left _ hg), ?_⟩
  rw [← blocks_snoc t]
  exact h.2

theorem snoc_root (hroot : L[0]? = some f) : (L++[(t, [])])[0]? = some f := by
  rw [List.getElem?_append_left (List.getElem?_eq_some_iff.mp hroot).1]
  exact hroot

theorem new_get (hroot : L[0]? = some f) :
    (append (L++[(t, [])]) 0 b)[L.length]? = some (t, []) := by
  have hpos := (List.getElem?_eq_some_iff.mp hroot).1
  rw [append_get_other (Nat.ne_of_gt hpos), List.getElem?_concat_length]

theorem Fit.of_add (hroot : L[0]? = some f) {g : Input} (h : (L.add g).Fit) : L.Fit :=
  ((h.of_appendReads (new_get hroot)).of_append (snoc_root hroot)).of_snoc

theorem add_root (hroot : L[0]? = some f) (g : Input) : ∃ f', (L.add g)[0]? = some f' := by
  have hpos := (List.getElem?_eq_some_iff.mp hroot).1
  rw [add, getElem?_appendReads (new_get hroot) _ (Nat.ne_of_lt hpos), append_get (snoc_root hroot) _]
  exact ⟨_, rfl⟩

theorem length_add (g : Input) : (L.add g).length = L.length+1 := by
  have hreads (L : Files) (i : ℕ) (reads : List (List UInt8)) :
      (L.appendReads i reads).length = L.length := by
    induction reads generalizing L with
    | nil => rfl
    | cons r reads ih => exact (ih _).trans length_append
  rw [add, hreads, length_append, List.length_append, List.length_singleton]

theorem Fit.of_addAll (hroot : L[0]? = some f) {fs : List Input} (h : (L.addAll fs).Fit) : L.Fit := by
  induction fs generalizing L f with
  | nil => exact h
  | cons g fs ih =>
    obtain ⟨f', hroot'⟩ := add_root hroot g
    exact (ih hroot' h).of_add hroot

end Files

/-! ## Adding files -/

section Adding
variable {L : Files} {s : Image} {i : ℕ} {g : ℕ × List UInt8}

theorem appendAll_holds (h : Holds L s) (hi : L[i]? = some g) (reads : List (List UInt8)) :
    post (appendAll (i+1) reads) s (fun _ s' => Holds (L.appendReads i reads) s')
      (fun _ _ => ¬(L.appendReads i reads).Fit) := by
  induction reads generalizing L s g with
  | nil => exact h
  | cons r reads ih =>
    have hnext := Files.append_get hi r
    refine post_bind_of (post_errors (iappend_holds h hi r) fun _ _ hbig hfit => ?_) fun _ s' h' => ih h' hnext
    exact hbig (Files.Fit.of_appendReads hnext hfit)

theorem addFile_holds (h : Holds L s) (hroot : L[0]? = some g) (hfew : L.length+1 < cap.ninodes)
    (f : Input) : post (addFile f) s (fun _ s' => Holds (L.add f) s' ∧ f.Named)
      (fun _ _ => ¬f.Named ∨ ¬(L.add f).Fit) := by
  rw [addFile]
  split_ifs with hslash hlen
  · exact .inl fun hn => hn.1 hslash
  · refine post_bind_of (post_safe (ialloc_holds h hfew (by decide) (by decide))) ?_
    rintro _ s1 ⟨rfl, h1⟩
    refine post_bind_of (post_errors (iappend_holds h1 (Files.snoc_root hroot) _) fun _ _ hbig => .inr fun hfit => hbig (hfit.of_appendReads (Files.new_get hroot))) ?_
    intro _ s2 h2
    exact post_mono (appendAll_holds h2 (Files.new_get hroot) f.reads)
      (fun _ _ hr => ⟨hr, hslash, hlen⟩) fun _ _ hbig => .inr hbig
  · exact .inl fun hn => hlen hn.2

theorem addFiles_holds (h : Holds L s) (hroot : L[0]? = some g) (fs : List Input)
    (hfew : L.length+fs.length < cap.ninodes) :
    post (addFiles fs) s (fun _ s' => Holds (L.addAll fs) s' ∧ ∀ f ∈ fs, f.Named)
      (fun _ _ => (∃ f ∈ fs, ¬f.Named) ∨ ¬(L.addAll fs).Fit) := by
  induction fs generalizing L s g with
  | nil => exact ⟨h, List.forall_mem_nil _⟩
  | cons f fs ih =>
    rw [List.length_cons] at hfew
    obtain ⟨g', hroot'⟩ := Files.add_root hroot f
    refine post_bind_of (post_errors (addFile_holds h hroot (by omega) f) fun _ _ hbad => ?_) fun _ s' ⟨h', hn'⟩ => ?_
    · refine hbad.imp (fun hn => ⟨f, List.mem_cons_self, hn⟩) fun hbig hfit => ?_
      exact hbig (Files.Fit.of_addAll hroot' hfit)
    · refine post_mono (ih h' hroot' ?_)
        (fun _ _ hr => ⟨hr.1, List.forall_mem_cons.mpr ⟨hn', hr.2⟩⟩) fun _ _ hbad => ?_
      · rw [Files.length_add]
        omega
      · exact hbad.imp (fun ⟨f', hf', hn⟩ => ⟨f', List.mem_cons_of_mem f hf', hn⟩) id

end Adding

/-! ## The whole run -/

variable {E : Died → Image → Prop} {Q : Unit → Image → Prop} {s : Image}

theorem post_zeroBlocks (n i : ℕ) (hs : s.block = fun _ => zeroBlock) (hlen : s.length = i)
    (hi : i+n ≤ FSSIZE) :
    post (zeroBlocks n i) s Q E ↔ Q () { s with length := i+n } := by
  induction n generalizing i s with
  | zero =>
    have hsame : ({ s with length := i+0 } : Image) = s := by
      rw [Nat.add_zero, ← hlen]
    rw [hsame]
    exact Iff.rfl
  | succ n ih =>
    rw [zeroBlocks, post_bind, wsect, post_modify, sector_eq (by omega),
      ih (i+1) (by dsimp only; rw [hs]; exact update_eq_self ..) (by dsimp only; omega) (by omega)]
    rw [hs, update_eq_self_iff.mpr rfl, Nat.add_right_comm, Nat.add_assoc]

def blank : Image :=
  ⟨update (fun _ => zeroBlock) 1 superBlock, FSSIZE, 1, nmeta, []⟩

theorem blank_block (b : ℕ) : blank.block b = if b = 1 then superBlock else zeroBlock :=
  update_apply (fun _ => zeroBlock) 1 superBlock b

theorem post_format :
    post (format FSSIZE) start Q E ↔ Q () blank := by
  have hformat (n : ℕ) (hn : n ≤ FSSIZE) : post (format n) start Q E ↔
      post (wsect 1 superBlock) { start with freeblock := nmeta, length := 0+n } Q E := by
    rw [format, post_bind, post_modify, post_bind, post_zeroBlocks n 0 rfl rfl (by omega)]
  rw [hformat FSSIZE le_rfl, Nat.zero_add]
  rfl

theorem blank_inode {n : ℕ} : dinodeOf cap blank.block n = Dinode.zero := by
  rw [dinodeOf, blank_block, if_neg (by rw [iblock_eq]; omega), getDinode_zeroBlock]

theorem blank_holds : Holds [] blank := by
  have htype (n : ℕ) : (dinodeOf cap blank.block n).type = 0 := by rw [blank_inode]; rfl
  refine ⟨⟨⟨⟨fun _ _ => getDinode_fits _ _, ?_⟩, ?_, ?_⟩, rfl, le_rfl, by decide, ?_, ?_⟩, rfl, by decide,
    ?_, fun n _ _ => htype n, rfl, blank_block 1, ?_⟩
  · exact fun n _ => absurd (htype n)
  · exact fun n _ => absurd (htype n)
  · exact fun n _ _ _ => absurd (htype n)
  · intro b hb _
    have : 47 ≤ b := hb
    rw [blank_block, if_neg (by omega)]
  · intro b hb hb'
    exact absurd hb' (Nat.not_lt.mpr hb)
  · intro i f hi
    cases hi
  · intro n hn
    cases hn

def roundedRoot (d : Dinode) : Dinode := { d with size := (d.size/BSIZE+1)*BSIZE % 2^32 }

def finished (s : Image) : Image :=
  { s with
    block := update
      (iupdated cap s.block ROOTINO (roundedRoot (dinodeOf cap s.block ROOTINO))) sb.bmapstart
      (firstBits s.freeblock)
    written := ROOTINO :: s.written }

/-- Either `main` writes all files, or a name is wrong, or the files do not fit. -/
theorem main_makes (files : List Input) (hfew : files.length+1 < cap.ninodes) :
    post (main files) start
      (fun _ s' => ∃ s, Holds (layout files) s ∧ (∀ f ∈ files, f.Named) ∧ s' = finished s)
      (fun _ _ => (∃ f ∈ files, ¬f.Named) ∨ ¬(layout files).Fit) := by
  have hroot : ([(T_DIR, [])] : Files)[0]? = some (T_DIR, []) := rfl
  have hroot1 := Files.append_get hroot (dirent dot ROOTINO)
  have hroot2 := Files.append_get hroot1 (dirent dotdot ROOTINO)
  have hlayout : ((Files.append [(T_DIR, [])] 0 (dirent dot ROOTINO)).append 0
      (dirent dotdot ROOTINO)).addAll files = layout files :=
    Files.addAll_cons files
  rw [main, post_bind, post_format]
  refine post_bind_of (post_safe (ialloc_holds blank_holds (by decide) (t := T_DIR) (by decide)
    (by decide))) ?_
  rintro rootino s1 ⟨hino, h1⟩
  obtain rfl : rootino = ROOTINO := hino
  rw [List.nil_append] at h1
  refine post_bind_of (post_errors (iappend_holds h1 hroot (dirent dot ROOTINO)) fun _ _ hbig => .inr fun hfit => hbig ?_) fun _ s2 h2 => ?_
  · rw [← hlayout] at hfit
    exact (hfit.of_addAll hroot2).of_append hroot1
  refine post_bind_of (post_errors (iappend_holds h2 hroot1 (dirent dotdot ROOTINO)) fun _ _ hbig => .inr fun hfit => hbig ?_) fun _ s3 h3 => ?_
  · rw [← hlayout] at hfit
    exact hfit.of_addAll hroot2
  refine post_bind_of (post_errors (addFiles_holds h3 hroot2 files ?_) fun _ _ hbad => ?_) fun _ s ⟨h, hnamed⟩ => ?_
  · rw [Nat.add_comm]
    exact hfew
  · rwa [hlayout] at hbad
  rw [hlayout] at h
  have hlt : s.freeblock < BPB := Nat.lt_of_le_of_lt h.disk.last (by decide)
  rw [fixRoot, post_bind, post_bind, post_rinode h.disk.length (by decide),
    post_winode h.disk.length (by decide), post_bind, post_get, balloc, if_pos hlt,
    post_wsect (by exact h.disk.length) (by decide)]
  exact ⟨s, h, hnamed, rfl⟩

/-! ## What is on the image -/

section Finished
variable {L : Files} {s : Image} {n : ℕ} (h : Holds L s)
include h

theorem Holds.type_iff (hn : n < cap.ninodes) :
    (dinodeOf cap s.block n).type ≠ 0 ↔ ∃ i f, n = i+1 ∧ L[i]? = some f := by
  refine ⟨fun ht => ?_, ?_⟩
  · have hin : ¬(n = 0 ∨ L.length < n) := fun hout => ht (h.rest n hn hout)
    obtain ⟨i, rfl⟩ : ∃ i, n = i+1 := ⟨n-1, by omega⟩
    exact ⟨i, _, rfl, List.getElem?_eq_getElem (by omega)⟩
  · rintro ⟨i, f, rfl, hi⟩
    have hfile := h.files i f hi
    rw [hfile.fields]
    exact hfile.type

theorem finished_inode (hn : n < cap.ninodes) : dinodeOf cap (finished s).block n =
    if n = ROOTINO then roundedRoot (dinodeOf cap s.block ROOTINO) else dinodeOf cap s.block n := by
  have hfits : (roundedRoot (dinodeOf cap s.block ROOTINO)).Fits := by
    have hf := h.disk.owned.fits ROOTINO (by decide)
    exact ⟨hf.type, hf.major, hf.minor, hf.nlink, Nat.mod_lt _ (by decide), hf.addrs⟩
  have hbitmap : sb.bmapstart ≠ cap.iblock n := by
    rw [cap_ninodes] at hn
    rw [iblock_eq]
    change 46 ≠ _
    omega
  rw [finished, dinodeOf_update hbitmap, dinodeOf_iupdated hfits]
  split_ifs with hroot
  · rw [hroot, flight_self]
  · rw [flight_other hroot]

omit h in
theorem finished_data {b : ℕ} (hb : cap.IsData b) : (finished s).block b = s.block b := by
  have hne := data_ne_iblock b hb ROOTINO (by decide)
  rw [isData_iff] at hb
  rw [finished]
  dsimp only
  rw [update_of_ne (by change b ≠ 46; omega), iupdated, update_of_ne hne]

theorem finished_slot (hn : n < cap.ninodes) (ht : (dinodeOf cap s.block n).type ≠ 0) (x : Slot) :
    slotAddr (finished s).block (dinodeOf cap (finished s).block n) x =
      slotAddr s.block (dinodeOf cap s.block n) x := by
  have hblocks : slotAddr (finished s).block (dinodeOf cap s.block n) x =
      slotAddr s.block (dinodeOf cap s.block n) x :=
    slotAddr_blocks fun hz => finished_data (h.disk.owned.ranged n hn ht (.addr indirect) hz)
  rw [finished_inode h hn, ← hblocks]
  split_ifs with hroot
  · rw [hroot]
    exact slotAddr_congr rfl
  · rfl

end Finished

theorem length_entriesFrom (n : ℕ) (fs : List Input) :
    (entriesFrom n fs).length = DIRENTSIZE*fs.length := by
  induction fs generalizing n with
  | nil => rfl
  | cons f fs ih =>
    rw [entriesFrom, List.length_append, ih, dirent, List.length_map, List.length_range,
      List.length_cons]
    ring

theorem length_rootBytes (fs : List Input) : (rootBytes fs).length = DIRENTSIZE*(fs.length+2) := by
  rw [rootBytes, List.length_append, List.length_append, length_entriesFrom, dirent, dirent,
    List.length_map, List.length_map, List.length_range]
  ring

section Root
variable {files : List Input} {s : Image} (h : Holds (layout files) s)
include h

/-- The size of the root directory is the next multiple of the block size. -/
theorem rounded_size : (roundedRoot (dinodeOf cap s.block ROOTINO)).size =
    (DIRENTSIZE*(files.length+2)/BSIZE+1)*BSIZE := by
  have hroot := h.files 0 _ rfl
  have hsmall := hroot.small
  have hsize : (dinodeOf cap s.block ROOTINO).size = DIRENTSIZE*(files.length+2) := by
    rw [hroot.fields]
    exact length_rootBytes files
  rw [length_rootBytes] at hsmall
  rw [roundedRoot]
  have hmax : MAXFILE*BSIZE = 274432 := rfl
  dsimp only
  rw [BSIZE] at *
  omega

theorem root_slot (bn : ℕ) (hbn : bn < MAXFILE) :
    slotAddr (finished s).block (dinodeOf cap (finished s).block ROOTINO) (bnSlot bn) ≠ 0 ↔
      bn*BSIZE < DIRENTSIZE*(files.length+2) := by
  have hroot := h.files 0 _ rfl
  have ht : (dinodeOf cap s.block ROOTINO).type ≠ 0 := by
    rw [hroot.fields]
    exact hroot.type
  rw [finished_slot h (by decide) ht, ← length_rootBytes]
  exact hroot.blocks.block bn hbn

end Root

/-! ## Holes -/

/-- Every inode has a block wherever its size says so. -/
def NoHoles (B : ℕ → Block) : Prop :=
  ∀ n < sb.ninodes, (dinodeOf sb B n).type ≠ 0 → ∀ bn, bn*BSIZE < (dinodeOf sb B n).size →
    slotAddr B (dinodeOf sb B n) (bnSlot bn) ≠ 0

/-- The entries of the root directory end with a block, or there is no hole. -/
theorem finished_no_holes {files : List Input} (h : Holds (layout files) s) :
    NoHoles (finished s).block ↔ (files.length+2) % (BSIZE/DIRENTSIZE) ≠ 0 := by
  have hsize := rounded_size h
  have hroot := finished_inode h (n := ROOTINO) (by decide)
  rw [if_pos rfl] at hroot
  have hsmall := (h.files 0 _ rfl).small
  rw [length_rootBytes] at hsmall
  have hperblock : BSIZE/DIRENTSIZE = 64 := rfl
  rw [hperblock]
  constructor
  · intro hno hmod
    -- the block behind the last entry
    refine (root_slot h (DIRENTSIZE*(files.length+2)/BSIZE) ?_).not.mpr ?_
      (hno ROOTINO (by decide) ?_ _ ?_)
    · have hfew := h.few
      have hmax : MAXFILE = 268 := rfl
      rw [layout, List.length_cons, List.length_map, cap_ninodes] at hfew
      rw [DIRENTSIZE, BSIZE]
      omega
    · rw [DIRENTSIZE, BSIZE]
      omega
    · change (dinodeOf cap (finished s).block ROOTINO).type ≠ 0
      rw [hroot, (h.files 0 _ rfl).fields]
      exact (h.files 0 _ rfl).type
    · change _ < (dinodeOf cap (finished s).block ROOTINO).size
      rw [hroot, hsize]
      rw [BSIZE]
      omega
  · intro hmod n hn ht bn hbn
    have hn' : n < cap.ninodes := Nat.lt_trans hn (by decide)
    change (dinodeOf cap (finished s).block n).type ≠ 0 at ht
    change bn*BSIZE < (dinodeOf cap (finished s).block n).size at hbn
    change slotAddr _ (dinodeOf cap (finished s).block n) _ ≠ 0
    by_cases hn1 : n = ROOTINO
    · subst hn1
      rw [hroot] at hbn
      have hlt : bn*BSIZE < DIRENTSIZE*(files.length+2) := by
        rw [DIRENTSIZE, BSIZE] at *
        omega
      exact (root_slot h _ (Nat.lt_of_mul_lt_mul_right (Nat.lt_of_lt_of_le hlt hsmall))).mpr hlt
    · have hsame := finished_inode h hn'
      rw [if_neg hn1] at hsame
      rw [hsame] at ht hbn
      obtain ⟨i, f, rfl, hi⟩ := (h.type_iff hn').mp ht
      have hfile := h.files i f hi
      rw [finished_slot h hn' ht]
      rw [hfile.fields] at hbn
      refine (hfile.blocks.block bn ?_).mpr hbn
      exact Nat.lt_of_mul_lt_mul_right (Nat.lt_of_lt_of_le hbn hfile.small)

/-- Files that fit, with names that mkfs takes, make an image, and it has a hole just if the entries of
the root directory end with a block. -/
theorem mkfs_no_holes_iff (files : List Input) (hfew : files.length ≤ NINODES-2)
    (hfit : (layout files).Fit) :
    post (main files) start (fun _ s => NoHoles s.block ↔ (files.length+2) % (BSIZE/DIRENTSIZE) ≠ 0)
      (fun _ _ => ∃ f ∈ files, ¬f.Named) := by
  have hlt : files.length+1 < cap.ninodes := by
    rw [NINODES] at hfew
    rw [cap_ninodes]
    omega
  refine post_mono (main_makes files hlt) ?_ fun _ _ hbad => hbad.resolve_right fun hbig => hbig hfit
  rintro _ _ ⟨s, h, -, rfl⟩
  exact finished_no_holes h

def emptyInput : Input := ⟨[97], [], by simp, by simp⟩

theorem emptyInput_named : emptyInput.Named := ⟨by decide, by decide⟩

theorem layout_empty_fit {k : ℕ} (hk : k ≤ 206) : (layout (List.replicate k emptyInput)).Fit := by
  have hmax : MAXFILE*BSIZE = 274432 := rfl
  have hlen := length_rootBytes (List.replicate k emptyInput)
  rw [List.length_replicate, DIRENTSIZE] at hlen
  have hroot : (rootBytes (List.replicate k emptyInput)).length ≤ 3328 := by omega
  have hempty : (List.replicate k emptyInput).map (fun f => (T_FILE, f.bytes)) =
      List.replicate k (T_FILE, []) := by
    rw [List.map_replicate]
    rfl
  have hzero : blocksFor ([] : List UInt8).length = 0 := rfl
  rw [layout, hempty]
  refine ⟨fun f hf => ?_, ?_⟩
  · rw [List.mem_cons] at hf
    rcases hf with rfl | hf
    · dsimp only
      omega
    · rw [List.eq_of_mem_replicate hf]
      exact Nat.zero_le _
  · have hle := blocksFor_le hroot
    have hfour : blocksFor 3328 = 4 := rfl
    have hblocks : nblocks = 1953 := rfl
    have hnone : (List.replicate k 0).sum = 0 := by simp
    rw [Files.blocks, List.map_cons, List.sum_cons, List.map_replicate, hzero]
    dsimp only
    omega

theorem main_empty {k : ℕ} (hk : k ≤ 206) : ∃ s, Holds (layout (List.replicate k emptyInput)) s ∧
      main (List.replicate k emptyInput) start = .ok () (finished s) := by
  have hlt : (List.replicate k emptyInput).length+1 < cap.ninodes := by
    rw [List.length_replicate, cap_ninodes]
    omega
  obtain ⟨_, _, hrun, s, h, -, rfl⟩ := exists_ok (post_errors (main_makes _ hlt) fun _ _ hbad => by
    rcases hbad with ⟨f, hf, hn⟩ | hbig
    · rw [List.eq_of_mem_replicate hf] at hn
      exact hn emptyInput_named
    · exact hbig (layout_empty_fit hk))
  exact ⟨s, h, hrun⟩

/-- "user/_cat", with a block and a half. -/
def catInput : Input :=
  ⟨[117, 115, 101, 114, 47, 95, 99, 97, 116], [List.replicate 1024 97, List.replicate 512 98],
    by simp, by
      simp only [List.forall_mem_cons, List.length_replicate, BSIZE]
      exact ⟨by decide, by decide, fun r hr => absurd hr List.not_mem_nil⟩⟩

/-- A file with a name of `DIRSIZ` bytes that goes on behind the direct blocks. -/
def longInput : Input :=
  ⟨[97, 98, 99, 100, 101, 102, 103, 104, 105, 106, 107, 108, 109, 110],
    List.replicate 13 (List.replicate 1024 99)++[List.replicate 100 100], by simp, by
      intro r hr
      rw [List.mem_append, List.mem_singleton] at hr
      rcases hr with hr | rfl
      · rw [List.eq_of_mem_replicate hr, List.length_replicate, BSIZE]
      · rw [List.length_replicate, BSIZE]
        decide⟩

theorem catInput_length : catInput.bytes.length = 1536 := by
  simp only [Input.bytes, catInput, List.flatten_cons, List.flatten_nil, List.length_append,
    List.length_replicate, List.length_nil]

theorem longInput_length : longInput.bytes.length = 13412 := by
  simp only [Input.bytes, longInput, List.flatten_append, List.length_append, List.length_flatten,
    List.map_replicate, List.length_replicate, List.map_cons, List.map_nil]
  rfl

def twoInputs : List Input := [catInput, longInput]

theorem twoInputs_fit : (layout twoInputs).Fit := by
  have hroot : (rootBytes [catInput, longInput]).length = 64 := length_rootBytes twoInputs
  refine ⟨?_, ?_⟩
  · simp only [layout, twoInputs, List.map_cons, List.map_nil, List.forall_mem_cons, catInput_length,
      longInput_length]
    refine ⟨?_, by decide, by decide, fun f hf => absurd hf List.not_mem_nil⟩
    exact hroot.le.trans (by decide)
  · simp only [Files.blocks, layout, twoInputs, List.map_cons, List.map_nil, List.sum_cons,
      List.sum_nil, hroot, catInput_length, longInput_length]
    decide

theorem twoInputs_named : ∀ f ∈ twoInputs, f.Named := by
  have hcat : catInput.Named := ⟨by decide, by decide⟩
  have hlong : longInput.Named := ⟨by decide, by decide⟩
  simp [twoInputs, hcat, hlong]

theorem mkfs_no_holes_iff_two : (layout twoInputs).Fit ∧
    ∃ s, main twoInputs start = .ok () s ∧ NoHoles s.block := by
  obtain ⟨_, s, hrun, hiff⟩ := exists_ok (post_errors
    (mkfs_no_holes_iff twoInputs (by decide) twoInputs_fit) fun _ _ ⟨f, hf, hn⟩ =>
      hn (twoInputs_named f hf))
  exact ⟨twoInputs_fit, s, hrun, hiff.mpr (by decide)⟩

/-- With 62 files the root directory has 64 entries in one block, and its size is two blocks. -/
theorem root_has_hole : ∃ s, main (List.replicate 62 emptyInput) start = .ok () s ∧
    ¬NoHoles s.block := by
  obtain ⟨s, h, hrun⟩ := main_empty (k := 62) (by decide)
  refine ⟨finished s, hrun, fun hno => (finished_no_holes h).mp hno ?_⟩
  decide

/-! ## The inodes -/

/-- The inodes that were written are those of the superblock and inside the inode blocks, and their
blocks are data blocks. -/
structure Right (s : Image) : Prop where
  inodes : ∀ n ∈ s.written, n < sb.ninodes ∧ sb.inodestart ≤ sb.iblock n ∧ sb.iblock n < sb.bmapstart
  blocks : ∀ n ∈ s.written, ∀ x, slotAddr s.block (dinodeOf sb s.block n) x ≠ 0 →
    sb.IsData (slotAddr s.block (dinodeOf sb s.block n) x)

theorem finished_right {files : List Input} (h : Holds (layout files) s)
    (hfew : files.length ≤ NINODES-2) : Right (finished s) := by
  have hlen : (layout files).length = files.length+1 := by
    rw [layout, List.length_cons, List.length_map]
  have hwritten (n : ℕ) (hn : n ∈ (finished s).written) :
      1 ≤ n ∧ n < 200 ∧ n ≤ (layout files).length := by
    rw [NINODES] at hfew
    rcases List.mem_cons.mp hn with rfl | hn
    · exact ⟨le_rfl, by decide, by rw [hlen]; exact Nat.le_add_left 1 _⟩
    · have := h.written n hn
      omega
  refine ⟨fun n hn => ?_, fun n hn x hz => ?_⟩
  · have hlt := hwritten n hn
    have hblock : sb.iblock n = n/16+33 := rfl
    change n < 200 ∧ 33 ≤ _ ∧ _ < 46
    omega
  · obtain ⟨hpos, hlt, hle⟩ := hwritten n hn
    have hn' : n < cap.ninodes := Nat.lt_trans hlt (by decide)
    have ht : (dinodeOf cap s.block n).type ≠ 0 := by
      refine (h.type_iff hn').mpr ⟨n-1, _, by omega, List.getElem?_eq_getElem ?_⟩
      omega
    change slotAddr _ (dinodeOf cap (finished s).block n) x ≠ 0 at hz
    change cap.IsData (slotAddr _ (dinodeOf cap (finished s).block n) x)
    rw [finished_slot h hn' ht] at hz ⊢
    exact h.disk.owned.ranged n hn' ht x hz

/-- The code allocates no inode, and what was written stays written. -/
def Keeps {α : Type} (x : M α) : Prop :=
  ∀ s, post x s (fun _ s' => s'.freeinode = s.freeinode ∧ s.written ⊆ s'.written) fun _ _ => True

namespace Keeps
variable {α β : Type}

theorem pure (a : α) : Keeps (pure a : M α) := fun _ => ⟨rfl, List.Subset.refl _⟩

theorem throw (e : Died) : Keeps (throw e : M α) := fun _ => trivial

theorem get : Keeps (get : M Image) := fun _ => ⟨rfl, List.Subset.refl _⟩

theorem modify {f : Image → Image} (hf : ∀ s, (f s).freeinode = s.freeinode)
    (hw : ∀ s, s.written ⊆ (f s).written) : Keeps (modify f : M Unit) := fun s => ⟨hf s, hw s⟩

theorem bind {x : M α} {f : α → M β} (hx : Keeps x) (hf : ∀ a, Keeps (f a)) : Keeps (x >>= f) := by
  intro s
  refine post_bind_of (hx s) fun a s' h => ?_
  exact post_imp (hf a s') (fun _ _ h' => ⟨h'.1.trans h.1, List.Subset.trans h.2 h'.2⟩)

theorem rsect (sec : ℕ) : Keeps (rsect sec) := by
  refine bind get fun s => ?_
  split_ifs
  · exact pure _
  · exact throw _

theorem wsect (sec : ℕ) (buf : Block) : Keeps (wsect sec buf) :=
  modify (fun _ => rfl) fun _ => List.Subset.refl _

theorem winode (n : ℕ) (d : Dinode) : Keeps (winode n d) :=
  bind (rsect _) fun _ => bind (wsect _ _) fun _ =>
    modify (fun _ => rfl) fun _ => List.subset_cons_self _ _

theorem rinode (n : ℕ) : Keeps (rinode n) := bind (rsect _) fun _ => pure _

theorem nextBlock : Keeps nextBlock :=
  bind get fun _ => bind (modify (fun _ => rfl) fun _ => List.Subset.refl _) fun _ => pure _

theorem addrBlock (d : Dinode) (k : Fin (NDIRECT+1)) : Keeps (addrBlock d k) := by
  unfold Mkfs.addrBlock
  split_ifs
  · exact bind nextBlock fun _ => pure _
  · exact pure _

theorem entryBlock (addr j : ℕ) : Keeps (entryBlock addr j) := by
  refine bind (rsect _) fun entries => ?_
  split_ifs
  · exact bind nextBlock fun _ => bind (wsect _ _) fun _ => pure _
  · exact pure _

theorem fileBlock (d : Dinode) (fbn : ℕ) : Keeps (fileBlock d fbn) := by
  unfold Mkfs.fileBlock
  split_ifs
  · exact bind (addrBlock _ _) fun _ => pure _
  · exact bind (addrBlock _ _) fun _ => bind (entryBlock _ _) fun _ => pure _

theorem iappendLoop (bytes : ℕ → UInt8) (fuel : ℕ) (d : Dinode) (off p n : ℕ) :
    Keeps (iappendLoop bytes fuel d off p n) := by
  induction fuel generalizing d off p n with
  | zero => exact pure _
  | succ fuel ih =>
    unfold Mkfs.iappendLoop
    split_ifs
    · exact bind (fileBlock _ _) fun _ => bind (rsect _) fun _ => bind (wsect _ _) fun _ => ih _ _ _ _
    · exact throw _
    · exact pure _

theorem iappend (n : ℕ) (bytes : List UInt8) : Keeps (iappend n bytes) :=
  bind (rinode _) fun _ => bind (iappendLoop _ _ _ _ _ _) fun _ => winode _ _

theorem appendAll (n : ℕ) (reads : List (List UInt8)) : Keeps (appendAll n reads) := by
  induction reads with
  | nil => exact pure _
  | cons r reads ih => exact bind (iappend n r) fun _ => ih

theorem balloc (used : ℕ) : Keeps (balloc used) := by
  unfold Mkfs.balloc
  split_ifs
  · exact wsect _ _
  · exact throw _

end Keeps

theorem ialloc_takes (t : ℕ) (s : Image) : post (ialloc t) s (fun n s' => n = s.freeinode ∧
    s'.freeinode = (s.freeinode+1) % 2^32 ∧ s.written ⊆ s'.written ∧ n ∈ s'.written)
    fun _ _ => True := by
  rw [ialloc, post_bind, post_get, post_bind, post_modify, post_bind, winode, post_bind]
  refine post_imp (Keeps.rsect _ _) (fun buf s1 h1 => ?_)
  exact ⟨rfl, h1.1, List.Subset.trans h1.2 (List.subset_cons_self _ _), List.mem_cons_self⟩

theorem addFile_takes (f : Input) (s : Image) : post (addFile f) s (fun _ s' =>
    s'.freeinode = (s.freeinode+1) % 2^32 ∧ s.written ⊆ s'.written ∧ s.freeinode ∈ s'.written)
    fun _ _ => True := by
  unfold addFile
  split_ifs
  · trivial
  · refine post_bind_of (ialloc_takes T_FILE s) ?_
    rintro _ s1 ⟨rfl, hnext, hsub, hmem⟩
    have hkeeps := Keeps.bind (Keeps.iappend ROOTINO (dirent f.shortname s.freeinode)) fun _ =>
      Keeps.appendAll s.freeinode f.reads
    refine post_imp (hkeeps s1) ?_
    rintro _ s2 ⟨hsame, hsub2⟩
    exact ⟨hsame.trans hnext, List.Subset.trans hsub hsub2, hsub2 hmem⟩
  · trivial

/-- With enough files the inode behind the last one of the superblock is written. -/
theorem addFiles_writes (fs : List Input)
    (h : NINODES ∈ s.written ∨ s.freeinode ≤ NINODES ∧ NINODES < s.freeinode+fs.length) :
    post (addFiles fs) s (fun _ s' => NINODES ∈ s'.written) fun _ _ => True := by
  induction fs generalizing s with
  | nil =>
    refine h.resolve_right fun hout => ?_
    rw [List.length_nil] at hout
    omega
  | cons f fs ih =>
    rw [List.length_cons] at h
    refine post_bind_of (addFile_takes f s) ?_
    rintro _ s1 ⟨hnext, hsub, hmem⟩
    refine ih (h.elim (fun hin => .inl (hsub hin)) fun hle => ?_)
    by_cases hlast : s.freeinode = NINODES
    · exact .inl (hlast ▸ hmem)
    · rw [NINODES] at *
      exact .inr (by omega)

theorem main_writes {files : List Input} (hmany : NINODES-2 < files.length) :
    post (main files) start (fun _ s => NINODES ∈ s.written) fun _ _ => True := by
  rw [main, post_bind, post_format]
  refine post_bind_of (ialloc_takes T_DIR blank) ?_
  rintro _ s1 ⟨rfl, hnext, -, -⟩
  split_ifs
  · refine post_bind_of (Keeps.iappend _ _ s1) fun _ s2 h2 => ?_
    refine post_bind_of (Keeps.iappend _ _ s2) fun _ s3 h3 => ?_
    have hfree : s3.freeinode = 2 := by
      rw [h3.1, h2.1, hnext]
      rfl
    refine post_bind_of (addFiles_writes files (.inr ?_)) fun _ s4 hmem => ?_
    · rw [NINODES] at *
      omega
    · have hend := Keeps.bind (Keeps.bind (Keeps.rinode ROOTINO) fun d => Keeps.winode ROOTINO
        (roundedRoot d)) fun _ => Keeps.bind Keeps.get fun s => Keeps.balloc s.freeblock
      exact post_imp (hend s4) (fun _ _ h => h.2 hmem)
  · trivial

/-- mkfs writes only inodes of the superblock if there are at most `NINODES-2` files, and whenever
there are more and it does not die it writes another one. -/
theorem mkfs_right_iff (files : List Input) :
    post (main files) start (fun _ s => Right s ↔ files.length ≤ NINODES-2) fun _ _ => True := by
  by_cases hfew : files.length ≤ NINODES-2
  · have hlt : files.length+1 < cap.ninodes := by
      rw [NINODES] at hfew
      rw [cap_ninodes]
      omega
    refine post_imp (post_true (main_makes files hlt)) ?_
    rintro _ _ ⟨s, h, -, rfl⟩
    exact iff_of_true (finished_right h hfew) hfew
  · refine post_imp (post_true (main_writes (Nat.lt_of_not_le hfew))) (fun _ s hmem => ?_)
    refine iff_of_false (fun hright => ?_) hfew
    exact Nat.lt_irrefl _ (hright.inodes NINODES hmem).1

/-- With 199 empty files mkfs does not die, and the last one is inode 200. -/
theorem inode_beyond_superblock : ∃ s, main (List.replicate 199 emptyInput) start = .ok () s ∧
    200 ∈ s.written ∧ sb.ninodes = 200 ∧ ¬Right s := by
  obtain ⟨s, -, hrun⟩ := main_empty (k := 199) (by decide)
  have hmany : NINODES-2 < (List.replicate 199 emptyInput).length := by
    rw [List.length_replicate]
    decide
  have hmem := post_ok (Q := fun _ s => NINODES ∈ s.written) (main_writes hmany) hrun
  exact ⟨finished s, hrun, hmem, rfl, fun hright => Nat.lt_irrefl _ (hright.inodes NINODES hmem).1⟩

end Xv6.Mkfs
