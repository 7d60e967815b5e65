import Mathlib.Tactic.Ring

/-! Little-endian integer fields inside a fixed-size array of bytes. Reads outside of it give 0. -/
namespace ByteFields

variable {n : ℕ}

def get8 (b : Fin n → UInt8) (i : ℕ) : UInt8 :=
  if h : i < n then b ⟨i,h⟩ else 0

/-- Replace the `len` bytes from `off` on by `f 0, f 1, ...`. -/
def splice (b : Fin n → UInt8) (off len : ℕ) (f : ℕ → UInt8) : Fin n → UInt8 :=
  fun j => if off ≤ j.val ∧ j.val < off+len then f (j.val-off) else b j

/-- The value of the `w` bytes `f 0, ..., f (w-1)`, least significant first. -/
def leSum (f : ℕ → UInt8) : ℕ → ℕ
  | 0 => 0
  | w+1 => (f 0).toNat+256*leSum (fun k => f (k+1)) w

def getLE (b : Fin n → UInt8) (off w : ℕ) : ℕ :=
  leSum (fun k => get8 b (off+k)) w

def leByte (v k : ℕ) : UInt8 := UInt8.ofNat (v/256^k)

def setLE (b : Fin n → UInt8) (off w v : ℕ) : Fin n → UInt8 :=
  splice b off w (leByte v)

theorem leSum_congr (f g : ℕ → UInt8) (w : ℕ) (h : ∀ k < w, f k = g k) :
    leSum f w = leSum g w := by
  induction w generalizing f g with
  | zero => rfl
  | succ w ih =>
    have ht := ih (fun k => f (k+1)) (fun k => g (k+1)) (fun k hk => h (k+1) (by omega))
    simp only [leSum, h 0 (by omega), ht]

theorem leSum_lt (f : ℕ → UInt8) (w : ℕ) : leSum f w < 256^w := by
  induction w generalizing f with
  | zero => simp [leSum]
  | succ w ih =>
    have ht := ih (fun k => f (k+1))
    have hb := (f 0).toNat_lt
    rw [leSum]
    omega

theorem leSum_leByte (v w : ℕ) : leSum (leByte v) w = v%256^w := by
  induction w generalizing v with
  | zero => simp [leSum, Nat.mod_one]
  | succ w ih =>
    have hshift : leSum (fun k => leByte v (k+1)) w = leSum (leByte (v/256)) w := by
      apply leSum_congr
      intro k _
      simp only [leByte, Nat.div_div_eq_div_mul, pow_succ']
    have hbyte : (leByte v 0).toNat = v%256 := by
      simp [leByte, UInt8.toNat_ofNat']
    rw [leSum, hshift, ih, hbyte, pow_succ', Nat.mod_mul]

section
variable (b : Fin n → UInt8)

theorem getLE_lt (off w : ℕ) : getLE b off w < 256^w :=
  leSum_lt _ _

section
variable (off len : ℕ) (f : ℕ → UInt8)

theorem get8_splice_inside (i : ℕ) (hn : i < n) (hlo : off ≤ i) (hhi : i < off+len) :
    get8 (splice b off len f) i = f (i-off) := by
  simp only [get8, splice, hn, hlo, hhi, and_self, ↓reduceDIte, ↓reduceIte]

theorem get8_splice_outside (i : ℕ)
    (h : i < off ∨ off+len ≤ i) : get8 (splice b off len f) i = get8 b i := by
  have hn : ¬(off ≤ i ∧ i < off+len) := by omega
  simp only [get8, splice, hn, ↓reduceIte]

theorem getLE_splice_outside (i w : ℕ)
    (h : i+w ≤ off ∨ off+len ≤ i) : getLE (splice b off len f) i w = getLE b i w := by
  apply leSum_congr
  intro k hk
  exact get8_splice_outside b off len f (i+k) (by omega)

theorem getLE_splice_inside (i w : ℕ) (hn : i+w ≤ n) (hlo : off ≤ i) (hhi : i+w ≤ off+len) :
    getLE (splice b off len f) i w = leSum (fun k => f (i-off+k)) w := by
  apply leSum_congr
  intro k hk
  rw [get8_splice_inside b off len f (i+k) (by omega) (by omega) (by omega)]
  congr 1
  omega

end

end

variable {b : Fin n → UInt8}

theorem getLE_setLE_same {off w v : ℕ} (hn : off+w ≤ n) :
    getLE (setLE b off w v) off w = v%256^w := by
  rw [setLE, getLE_splice_inside b off w _ off w hn le_rfl le_rfl, ← leSum_leByte]
  apply leSum_congr
  intro k _
  simp

theorem getLE_setLE_outside {off w v i u : ℕ} (h : i+u ≤ off ∨ off+w ≤ i) :
    getLE (setLE b off w v) i u = getLE b i u :=
  getLE_splice_outside b off w _ i u h

theorem getLE_zero (off w : ℕ) : getLE (fun _ : Fin n => 0) off w = 0 := by
  have hz : getLE (fun _ : Fin n => 0) off w = leSum (leByte 0) w := by
    apply leSum_congr
    intro k _
    simp [get8, leByte]
  rw [hz, leSum_leByte, Nat.zero_mod]

end ByteFields
