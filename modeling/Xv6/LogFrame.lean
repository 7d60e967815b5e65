import Xv6.LogRecovery

/-! A buffer that some process has locked is not touched by the steps of a commit, and a step that
comes to its end leaves no lock behind. -/
namespace Xv6
open StateOutcome

/-- From `m` to `m'` the buffers locked in `m` kept their contents, and every lock in `m'`
that `m` did not have is on a buffer of `held`. -/
structure Keeps (m : Machine) (held : List (Fin NBUF)) (m' : Machine) : Prop where
  inList : ∀ i, i ∈ m'.lru
  locked : ∀ i, (m.buf i).lock.isSome → m'.buf i = m.buf i ∧ i ∉ held
  unlocked : ∀ i, i ∉ held → (m'.buf i).lock.isSome → (m.buf i).lock.isSome

def Unlocked (m : Machine) (b : ℕ) : Prop :=
  ∀ i, (m.buf i).dev = ROOTDEV → (m.buf i).blockno = b → (m.buf i).lock = none

namespace Keeps

variable {m m1 : Machine} {held : List (Fin NBUF)}

theorem refl (hl : ∀ i, i ∈ m.lru) : Keeps m [] m :=
  ⟨hl, fun _ _ => ⟨rfl,List.not_mem_nil⟩, fun _ _ h => h⟩

variable {i : Fin NBUF} {p : ℕ}

theorem fetched {m2 : Machine} {dev b : ℕ} (h : Keeps m held m1)
    (hf : Fetched m1 p dev b i m2) : Keeps m (i :: held) m2 := by
  have hlru : m2.lru = m1.lru := by
    obtain ⟨_,r,v,rfl,_⟩ := hf
    rfl
  refine ⟨hlru ▸ h.inList, ?_, ?_⟩
  · intro j hj
    obtain ⟨hsame,hheld⟩ := h.locked j hj
    have hji : j ≠ i := hf.ne_locked (hsame ▸ hj)
    exact ⟨(hf.other hji).trans hsame, by simp [hji, hheld]⟩
  · intro j hj hlock
    rw [List.mem_cons, not_or] at hj
    rw [hf.other hj.1] at hlock
    exact h.unlocked j hj.2 hlock

theorem setBuf (h : Keeps m held m1) (hi : i ∈ held) (nb : Buf) :
    Keeps m held (m1.setBuf i nb) := by
  have hother : ∀ j, j ≠ i → (m1.setBuf i nb).buf j = m1.buf j := fun j hj =>
    Function.update_of_ne hj _ _
  refine ⟨h.inList, ?_, ?_⟩
  · intro j hj
    obtain ⟨hsame,hheld⟩ := h.locked j hj
    have hji : j ≠ i := by
      rintro rfl
      exact hheld hi
    exact ⟨(hother j hji).trans hsame, hheld⟩
  · intro j hj hlock
    have hji : j ≠ i := by
      rintro rfl
      exact hj hi
    rw [hother j hji] at hlock
    exact h.unlocked j hj hlock

theorem trans {m2 : Machine} (h : Keeps m [] m1) (h' : Keeps m1 [] m2) : Keeps m [] m2 := by
  refine ⟨h'.inList, ?_, ?_⟩
  · intro i hi
    have hsame := (h.locked i hi).1
    exact ⟨((h'.locked i (hsame ▸ hi)).1).trans hsame, List.not_mem_nil⟩
  · intro i hi hlock
    exact h.unlocked i hi (h'.unlocked i hi hlock)

section
variable (h : Keeps m held m1)
include h

theorem with_log (l : Log) : Keeps m held { m1 with log := l } :=
  ⟨h.inList, h.locked, h.unlocked⟩

theorem modBuf_post (hi : i ∈ held) (f : Buf → Buf) :
    post (modBuf i f) m1 (fun _ m2 => Keeps m held m2) (fun _ _ => True) :=
  h.setBuf hi _

theorem bwrite_post :
    post (bwrite p i) m1 (fun _ m2 => Keeps m held m2) (fun _ _ => True) := by
  by_cases hp : (m1.buf i).lock = some p
  · apply post_imp (post_true (Xv6.bwrite_post m1 p i hp))
    rintro _ m2 rfl
    exact ⟨h.inList, h.locked, h.unlocked⟩
  · simp [bwrite, holdingsleep, hp]

theorem brelse_post (hi : i ∈ held) (held' : List (Fin NBUF)) (hsub : ∀ j ∈ held', j ∈ held)
    (hrest : ∀ j ∈ held, j ≠ i → j ∈ held') :
    post (brelse p i) m1 (fun _ m2 => Keeps m held' m2) (fun _ _ => True) := by
  by_cases hp : (m1.buf i).lock = some p
  · apply post_imp (post_true (Xv6.brelse_post m1 p i hp))
    rintro _ m2 ⟨lru,hlru,rfl⟩
    have hs := h.setBuf hi { m1.buf i with lock := none, refcnt := (m1.buf i).refcnt-1 }
    refine ⟨fun j => hlru j (h.inList j), ?_, ?_⟩
    · intro j hj
      obtain ⟨hsame,hheld⟩ := hs.locked j hj
      exact ⟨hsame, fun hn => hheld (hsub j hn)⟩
    · intro j hj hlock
      have hji : j ≠ i := by
        rintro rfl
        simp at hlock
      exact hs.unlocked j (fun hn => hj (hrest j hn hji)) hlock
  · simp [brelse, holdingsleep, hp]

theorem logWrite_post (hi : i ∈ held) :
    post (logWrite i) m1 (fun _ m2 => Keeps m held m2) (fun _ _ => True) := by
  unfold logWrite
  rw [post_bind, post_get]
  split_ifs
  · exact trivial
  · exact trivial
  · exact h
  · exact (h.setBuf hi _).with_log _

end

end Keeps

variable {b p : ℕ}

/-- A block that `bread` returns was not locked when the step began. -/
theorem Fetched.was_unlocked {start : ℕ} {pins : List ℕ} {m m1 m2 : Machine}
    {block disk : ℕ → Block} {held : List (Fin NBUF)} {i : Fin NBUF} (hk : Keeps m held m1)
    (h1 : CacheView start pins m1 block disk) (hf : Fetched m1 p ROOTDEV b i m2) :
    Unlocked m b := by
  intro j hd hb
  by_contra hlock
  have hsome := Option.isSome_iff_ne_none.mpr hlock
  have hsame := (hk.locked j hsome).1
  have hji : j ≠ i := hf.ne_locked (by rwa [hsame])
  obtain ⟨_,r,v,_,_,⟨hi,hbi,_⟩ | ⟨_,hmiss,_⟩⟩ := hf
  · exact h1.only_buffer hi hji (by rwa [hsame]) (by rw [hsame, hb, hbi])
  · exact hmiss j (by rw [hsame]; exact ⟨hd,hb⟩)

section
variable {start : ℕ} {pins : List ℕ} {m : Machine} {block disk : ℕ → Block}

theorem writeLogBlock_keeps {tail : ℕ} (h : CacheView start pins m block disk)
    (ht : tail < LOGBLOCKS) :
    post (writeLogBlock p tail b) m
      (fun _ m' => Keeps m [] m' ∧ Unlocked m (start+tail+1) ∧ Unlocked m b)
      (fun _ _ => True) := by
  unfold writeLogBlock
  rw [post_bind, post_get, h.logDev, h.logStart]
  apply post_bind_of (post_true (bread_fetched m p ROOTDEV (start+tail+1) h.inList))
  intro tbuf m1 hf1
  have hut := hf1.was_unlocked (Keeps.refl h.inList) h
  have h1 := (h.fetched_log hf1 (logBlock_not_home start tail ht)).1
  have hk1 := (Keeps.refl h.inList).fetched hf1
  apply post_bind_of (post_true (bread_fetched m1 p ROOTDEV b h1.inList))
  intro fbuf m2 hf2
  have hu : Unlocked m b := hf2.was_unlocked hk1 h1
  rw [post_bind]
  apply post_bind_of ((hk1.fetched hf2).modBuf_post (i := tbuf) (by simp) _)
  intro _ m3 hk3
  apply post_bind_of hk3.bwrite_post
  intro _ m4 hk4
  apply post_bind_of (hk4.brelse_post (by simp) [tbuf] (by simp) (by simp))
  intro _ m5 hk5
  exact post_imp (hk5.brelse_post (by simp) [] (by simp) (by simp)) (fun _ _ hk => ⟨hk,hut,hu⟩)

theorem installBlock_keeps {tail : ℕ} {recovering : Bool}
    (h : CacheView start pins m block disk) (ht : tail < LOGBLOCKS) :
    post (installBlock p recovering tail b) m (fun _ m' => Keeps m [] m' ∧ Unlocked m b)
      (fun _ _ => True) := by
  unfold installBlock
  rw [post_bind, post_get, h.logDev, h.logStart]
  apply post_bind_of (post_true (bread_fetched m p ROOTDEV (start+tail+1) h.inList))
  intro lbuf m1 hf1
  have h1 := (h.fetched_log hf1 (logBlock_not_home start tail ht)).1
  have hk1 := (Keeps.refl h.inList).fetched hf1
  apply post_bind_of (post_true (bread_fetched m1 p ROOTDEV b h1.inList))
  intro dbuf m2 hf2
  have hu : Unlocked m b := hf2.was_unlocked hk1 h1
  rw [post_bind]
  apply post_bind_of ((hk1.fetched hf2).modBuf_post (i := dbuf) (by simp) _)
  intro _ m3 hk3
  apply post_bind_of hk3.bwrite_post
  intro _ m4 hk4
  have hunpin : post (if recovering then pure () else bunpin dbuf) m4
      (fun _ => Keeps m [dbuf,lbuf]) (fun _ _ => True) := by
    cases recovering with
    | true => exact hk4
    | false =>
      rw [if_neg (by simp)]
      exact hk4.modBuf_post (by simp) _
  apply post_bind_of hunpin
  intro _ m5 hk5
  apply post_bind_of (hk5.brelse_post (by simp) [dbuf] (by simp) (by simp))
  intro _ m6 hk6
  exact post_imp (hk6.brelse_post (by simp) [] (by simp) (by simp)) (fun _ _ hk => ⟨hk,hu⟩)

theorem writeHead_keeps (h : CacheView start pins m block disk) :
    post (writeHead p) m (fun _ m' => Keeps m [] m' ∧ Unlocked m start) (fun _ _ => True) := by
  unfold writeHead
  rw [post_bind, post_get, h.logDev, h.logStart]
  apply post_bind_of (post_true (bread_fetched m p ROOTDEV start h.inList))
  intro buf m1 hf1
  have hk := Keeps.refl h.inList
  have hu : Unlocked m start := hf1.was_unlocked hk h
  rw [post_bind]
  apply post_bind_of ((hk.fetched hf1).modBuf_post (i := buf) (by simp) _)
  intro _ m2 hk2
  apply post_bind_of hk2.bwrite_post
  intro _ m3 hk3
  exact post_imp (hk3.brelse_post (by simp) [] (by simp) (by simp)) (fun _ _ hk => ⟨hk,hu⟩)

theorem readHead_keeps (hl : ∀ i, i ∈ m.lru) :
    post (readHead p) m (fun _ m' => Keeps m [] m') (fun _ _ => True) := by
  unfold readHead
  apply post_bind_of (post_true (bread_fetched m p m.log.dev m.log.start hl))
  intro buf m1 hf1
  have hk := (Keeps.refl hl).fetched hf1
  exact (hk.with_log _).brelse_post (by simp) [] (by simp) (by simp)

theorem installTransFrom_keeps (bs : List ℕ) (tail : ℕ)
    (h : CacheView start [] m block disk) (hb : ∀ b ∈ bs, Home start b)
    (ht : tail+bs.length ≤ LOGBLOCKS) :
    post (installTransFrom p true tail bs) m (fun _ m' => Keeps m [] m') (fun _ _ => True) := by
  induction bs generalizing tail m block disk with
  | nil => exact Keeps.refl h.inList
  | cons b bs ih =>
    rw [List.length_cons] at ht
    have ht' : tail < LOGBLOCKS := by omega
    have hview : CacheView start (if true then [] else b :: []) m block disk := h
    have hone := post_and
      (installBlock_post (p := p) hview List.not_mem_nil (hb b List.mem_cons_self) ht')
      (installBlock_keeps (b := b) h ht')
    apply post_bind_of (post_true hone)
    rintro _ m1 ⟨⟨h1,_,_⟩,hk1,_⟩
    exact post_imp (ih (tail+1) h1 (fun c hc => hb c (List.mem_cons_of_mem b hc)) (by omega)) (fun _ _ => hk1.trans)

/-- A recovery that comes to its end leaves the locks as they were. -/
theorem recoverFromLog_keeps (h : CacheView start [] m block disk)
    (hl : LogList start (headEntries (m.disk start))) :
    post (recoverFromLog p) m (fun _ m' => Keeps m [] m') (fun _ _ => True) := by
  apply post_bind_of (post_true (post_and (readHead_post h) (readHead_keeps h.inList)))
  rintro _ m1 ⟨⟨h1,_,hlog1⟩,hk1⟩
  have hlen : 0+(headEntries (m.disk start)).length ≤ LOGBLOCKS := by
    rw [Nat.zero_add]
    exact hl.fits
  have hinstall := post_and (installTransFrom_keeps (p := p) _ 0 h1 hl.home hlen)
    (installTransFrom_post (p := p) true _ 0 h1 hl.nodup hl.home hlen)
  unfold installTrans
  rw [bind_assoc, post_bind, post_get, hlog1]
  apply post_bind_of (post_true hinstall)
  rintro _ m2 ⟨hk2,h2,_,_⟩
  have h3 := h2.with_log { m2.log with lh := [] } rfl rfl
  apply post_imp (writeHead_keeps h3)
  rintro _ m4 ⟨hk4,_⟩
  exact ((hk1.trans hk2).with_log _).trans hk4

end
end Xv6
