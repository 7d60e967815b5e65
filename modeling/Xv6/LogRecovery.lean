import Xv6.LogHeader
import Xv6.LogWrites

/-! `Recovers start d D`: recovery turns the home blocks of `d` into `D`. Before the header of a
transaction is written these are the old contents, from then on the new ones, and no crash during
recovery changes that. -/
namespace Xv6
open ByteFields StateOutcome

structure LogList (start : ℕ) (lh : List ℕ) : Prop where
  nodup : lh.Nodup
  home : ∀ b ∈ lh, Home start b
  fits : lh.length ≤ LOGBLOCKS

/-- A list of logged blocks that the header on the disk can hold. -/
structure Logged (start : ℕ) (lh : List ℕ) : Prop extends LogList start lh where
  uint : ∀ b ∈ lh, b < 2^32

structure Recovers (start : ℕ) (d D : ℕ → Block) : Prop where
  logged : Logged start (headEntries (d start))
  installs : ∀ b, Home start b →
    writeBlocks d (homeCopies start d 0 (headEntries (d start))) b = D b

theorem Logged.nil (start : ℕ) : Logged start [] :=
  ⟨⟨List.nodup_nil, by simp, by simp⟩, by simp⟩

variable {lh : List ℕ} {D d block : ℕ → Block}

theorem LogList.absorb {start b : ℕ} (h : LogList start lh) (hb : Home start b)
    (hlt : lh.length < LOGBLOCKS) : LogList start (if b ∈ lh then lh else lh ++ [b]) := by
  by_cases hm : b ∈ lh
  · rwa [if_pos hm]
  · rw [if_neg hm]
    refine ⟨?_, ?_, ?_⟩
    · refine List.nodup_append.mpr ⟨h.nodup, by simp, ?_⟩
      rintro a ha c hc rfl
      exact hm (List.mem_singleton.mp hc ▸ ha)
    · intro c hc
      rcases List.mem_append.mp hc with hc | hc
      · exact h.home c hc
      · rwa [List.mem_singleton.mp hc]
    · rw [List.length_append]
      exact hlt

theorem mem_absorb (b c : ℕ) (lh : List ℕ) :
    c ∈ (if b ∈ lh then lh else lh ++ [b]) ↔ c ∈ lh ∨ c = b := by
  split_ifs with hm
  · exact ⟨Or.inl, fun hc => hc.elim id (fun he => he ▸ hm)⟩
  · rw [List.mem_append, List.mem_singleton]

theorem Recovers.of_empty {start : ℕ} (hn : getLE (d start) 0 4 = 0)
    (hD : ∀ b, Home start b → d b = D b) : Recovers start d D := by
  have he := headEntries_empty (d start) hn
  refine ⟨he ▸ Logged.nil start, ?_⟩
  rw [he]
  exact hD

section
variable {start : ℕ} (d : ℕ → Block)

theorem homeCopies_home (tail : ℕ) (lh : List ℕ)
    (hh : ∀ b ∈ lh, Home start b) : ∀ w ∈ homeCopies start d tail lh, Home start w.1 := by
  induction lh generalizing tail with
  | nil => simp [homeCopies]
  | cons b bs ih =>
    intro w hw
    rcases List.mem_cons.mp hw with rfl | hw
    · exact hh b List.mem_cons_self
    · exact ih (tail+1) (fun c hc => hh c (List.mem_cons_of_mem b hc)) w hw

theorem writeBlocks_log (ws : List (ℕ × Block))
    (hh : ∀ w ∈ ws, Home start w.1) (b : ℕ) (hb : ¬Home start b) : writeBlocks d ws b = d b := by
  apply writeBlocks_other
  rintro w hw rfl
  exact hb (hh w hw)

theorem homeCopies_after (ws : List (ℕ × Block)) (lh : List ℕ)
    (hh : ∀ w ∈ ws, Home start w.1) (hl : lh.length ≤ LOGBLOCKS) :
    homeCopies start (writeBlocks d ws) 0 lh = homeCopies start d 0 lh := by
  apply homeCopies_congr
  intro k hk
  exact writeBlocks_log d ws hh _ (logBlock_not_home start _ (by omega))

end

/-- Installing again after part of the installation gives the same contents. -/
theorem writeBlocks_prefix_again (d : ℕ → Block) (ws vs : List (ℕ × Block)) (hp : vs <+: ws)
    (b : ℕ) : writeBlocks (writeBlocks d vs) ws b = writeBlocks d ws b := by
  apply writeBlocks_congr
  intro hw
  exact writeBlocks_other d vs b (fun w hv => hw w (hp.subset hv))

theorem Recovers.install {start : ℕ} (h : Recovers start d D)
    (vs : List (ℕ × Block)) (hp : vs <+: homeCopies start d 0 (headEntries (d start))) :
    Recovers start (writeBlocks d vs) D := by
  have hvs : ∀ w ∈ vs, Home start w.1 := fun w hw =>
    homeCopies_home d 0 _ h.logged.home w (hp.subset hw)
  have hhead := writeBlocks_log d vs hvs _ header_not_home
  constructor
  · rw [hhead]
    exact h.logged
  · intro b hb
    rw [hhead, homeCopies_after d vs _ hvs h.logged.fits, writeBlocks_prefix_again d _ vs hp]
    exact h.installs b hb

/-- The header is cleared after every home block has been installed. -/
theorem Recovers.clear {start : ℕ} (hh : ∀ b, Home start b → d b = D b)
    (h : Block) : Recovers start (writeBlock d (start, setHead h [])) D := by
  apply Recovers.of_empty
  · simpa [writeBlock] using setHead_length h [] (by simp)
  · intro b hb
    rw [writeBlock_other (by rintro rfl; exact header_not_home hb)]
    exact hh b hb

def recoverWrites (start : ℕ) (d : ℕ → Block) : List (ℕ × Block) :=
  homeCopies start d 0 (headEntries (d start)) ++ [(start, setHead (d start) [])]

theorem prefix_append_cases {α : Type*} {us ws vs : List α} (h : us <+: ws ++ vs) :
    us <+: ws ∨ ∃ ts, ts <+: vs ∧ us = ws ++ ts := by
  rcases List.prefix_or_prefix_of_prefix h (List.prefix_append ws vs) with hs | ⟨ts,rfl⟩
  · exact Or.inl hs
  · exact Or.inr ⟨ts, (List.prefix_append_right_inj ws).mp h, rfl⟩

/-- No crash during recovery changes what recovery is going to produce. -/
theorem Recovers.recovery_crash {start : ℕ} (h : Recovers start d D)
    (vs : List (ℕ × Block)) (hp : vs <+: recoverWrites start d) :
    Recovers start (writeBlocks d vs) D := by
  rcases prefix_append_cases hp with hs | ⟨ts,hts,rfl⟩
  · exact h.install vs hs
  · rcases List.prefix_cons_iff.mp hts with rfl | ⟨us,rfl,hus⟩
    · rw [List.append_nil]
      exact h.install _ List.prefix_rfl
    · rw [List.prefix_nil.mp hus, writeBlocks_append, writeBlocks_cons]
      exact Recovers.clear h.installs _

/-- The disk just after the header of a transaction has been written. -/
theorem Recovers.of_committed {start : ℕ}
    (block : ℕ → Block) (hD : ∀ b, Home start b → d b = D b) (hl : Logged start lh) :
    Recovers start (writeBlock (writeBlocks d (logCopies start block 0 lh))
      (start, setHead (d start) lh)) (fun b => if b ∈ lh then block b else D b) := by
  set e := writeBlocks d (logCopies start block 0 lh) with he
  have hfits : lh.length ≤ 255 := hl.fits.trans (by decide)
  have hentries : headEntries (writeBlock e (start, setHead (d start) lh) start) = lh := by
    rw [writeBlock, Function.update_self]
    exact headEntries_setHead _ _ hl.uint hfits
  have hcopies : homeCopies start (writeBlock e (start, setHead (d start) lh)) 0 lh =
      lh.map fun b => (b, block b) := by
    rw [← homeCopies_logCopies start block d 0 lh]
    apply homeCopies_congr
    intro k _
    exact writeBlock_other (by dsimp only; omega)
  constructor
  · rw [hentries]
    exact hl
  · intro b hb
    have hbs : b ≠ start := by
      rintro rfl
      exact header_not_home hb
    rw [hentries, hcopies, writeBlocks_same, writeBlock_other hbs, he, writeBlocks_other, hD b hb]
    intro w hw hwb
    have := logCopies_above block 0 lh w hw
    have := hl.fits
    unfold Home at hb
    omega

/-- Before the header is written the home blocks and the old header are all there is. -/
theorem Recovers.of_copies {start : ℕ}
    (hn : getLE (d start) 0 4 = 0) (hD : ∀ b, Home start b → d b = D b) (hl : Logged start lh)
    (vs : List (ℕ × Block)) (hp : vs <+: logCopies start block 0 lh) :
    Recovers start (writeBlocks d vs) D := by
  have hab : ∀ w ∈ vs, start < w.1 ∧ w.1 ≤ start+LOGBLOCKS := by
    intro w hw
    have := logCopies_above block 0 lh w (hp.subset hw)
    have := hl.fits
    omega
  apply Recovers.of_empty
  · rw [writeBlocks_other]
    · exact hn
    · intro w hw he
      have := hab w hw
      omega
  · intro b hb
    rw [writeBlocks_other]
    · exact hD b hb
    · intro w hw he
      have := hab w hw
      unfold Home at hb
      omega

/-- Has a header been written among these writes? -/
def headWritten (start : ℕ) (ws : List (ℕ × Block)) : Bool :=
  ws.any fun w => w.1 == start

theorem headWritten_copies {start : ℕ} (block : ℕ → Block) (lh : List ℕ)
    (vs : List (ℕ × Block)) (hp : vs <+: logCopies start block 0 lh) :
    headWritten start vs = false := by
  rw [headWritten, List.any_eq_false]
  intro w hw he
  have hab := logCopies_above block 0 lh w (hp.subset hw)
  have hs : w.1 = start := by simpa using he
  omega

/-- A crash during a commit: the old contents before the header is on the disk, the new ones
after it. -/
theorem Recovers.commit_crash {start : ℕ}
    (hn : getLE (d start) 0 4 = 0) (hD : ∀ b, Home start b → d b = D b) (hl : Logged start lh)
    (vs : List (ℕ × Block)) (hp : vs <+: commitWrites start (d start) block lh) :
    Recovers start (writeBlocks d vs)
      (if headWritten start vs then fun b => if b ∈ lh then block b else D b else D) := by
  by_cases hlh : lh = []
  · simp only [commitWrites, hlh, ↓reduceIte, List.prefix_nil] at hp
    subst hp
    exact Recovers.of_empty hn hD
  simp only [commitWrites, hlh, ↓reduceIte] at hp
  rcases prefix_append_cases hp with hs | ⟨ts,hts,rfl⟩
  · rw [headWritten_copies block lh vs hs]
    exact Recovers.of_copies hn hD hl vs hs
  · rcases List.prefix_cons_iff.mp hts with rfl | ⟨us,rfl,hus⟩
    · rw [List.append_nil, headWritten_copies block lh _ List.prefix_rfl]
      exact Recovers.of_copies hn hD hl _ List.prefix_rfl
    · have hw : headWritten start (logCopies start block 0 lh ++
          (start, setHead (d start) lh) :: us) = true := by
        simp [headWritten]
      have hc := Recovers.of_committed block hD hl
      rw [hw, if_pos rfl, writeBlocks_append]
      apply hc.recovery_crash us
      -- from here on a commit writes exactly what recovery would write
      set e := writeBlock (writeBlocks d (logCopies start block 0 lh))
        (start, setHead (d start) lh) with he
      have hstart : e start = setHead (d start) lh := by
        rw [he, writeBlock, Function.update_self]
      have hentries : headEntries (e start) = lh := by
        rw [hstart]
        exact headEntries_setHead _ _ hl.uint (hl.fits.trans (by decide))
      have hcopies : homeCopies start e 0 lh = lh.map fun b => (b, block b) := by
        rw [← homeCopies_logCopies start block d 0 lh]
        apply homeCopies_congr
        intro k _
        exact writeBlock_other (by dsimp only; omega)
      rw [recoverWrites, hentries, hcopies, hstart]
      exact hus

end Xv6
