import Xv6.ByteFields

/-! The disk: numbered blocks of `BSIZE` bytes (kernel/fs.h, kernel/param.h), and the two ways in
which a kernel thread stops for good. -/
namespace Xv6
open ByteFields Function

abbrev BSIZE : ℕ := 1024
abbrev MAXOPBLOCKS : ℕ := 10
abbrev LOGBLOCKS : ℕ := MAXOPBLOCKS*3
abbrev NBUF : ℕ := MAXOPBLOCKS*3
abbrev ROOTDEV : ℕ := 1

abbrev Block := Fin BSIZE → UInt8

def zeroBlock : Block := fun _ => 0

/-- A kernel thread that does not return: it called panic, or it sleeps on a lock or a
condition that nothing else in the run changes. -/
inductive Halt
  | panic (msg : String)
  | asleep
  deriving DecidableEq, Repr

/-- One single-block write takes effect on the disk. -/
def writeBlock (d : ℕ → Block) (w : ℕ × Block) : ℕ → Block :=
  update d w.1 w.2

/-- Writes that reach the disk one after the other. -/
def writeBlocks (d : ℕ → Block) (ws : List (ℕ × Block)) : ℕ → Block :=
  ws.foldl writeBlock d

theorem writeBlock_other {d : ℕ → Block} {w : ℕ × Block} {b : ℕ} (h : b ≠ w.1) :
    writeBlock d w b = d b := update_of_ne h _ _

section
variable (d : ℕ → Block)

theorem writeBlocks_nil : writeBlocks d [] = d := rfl

theorem writeBlocks_cons (w : ℕ × Block) (ws : List (ℕ × Block)) :
    writeBlocks d (w :: ws) = writeBlocks (writeBlock d w) ws := rfl

theorem writeBlocks_append (ws vs : List (ℕ × Block)) :
    writeBlocks d (ws ++ vs) = writeBlocks (writeBlocks d ws) vs := by
  simp only [writeBlocks, List.foldl_append]

theorem writeBlocks_other (ws : List (ℕ × Block)) (b : ℕ)
    (h : ∀ w ∈ ws, w.1 ≠ b) : writeBlocks d ws b = d b := by
  induction ws generalizing d with
  | nil => rfl
  | cons w ws ih =>
    rw [writeBlocks_cons, ih _ (fun v hv => h v (List.mem_cons_of_mem w hv)),
      writeBlock_other (h w List.mem_cons_self).symm]

end

/-- What a block holds after some writes depends on the old disk only where none of them
lands. -/
theorem writeBlocks_congr (d e : ℕ → Block) (ws : List (ℕ × Block)) (b : ℕ)
    (h : (∀ w ∈ ws, w.1 ≠ b) → d b = e b) : writeBlocks d ws b = writeBlocks e ws b := by
  induction ws generalizing d e with
  | nil => exact h (by simp)
  | cons w ws ih =>
    apply ih
    intro hws
    by_cases hb : w.1 = b
    · simp only [writeBlock, ← hb, update_self]
    · have hd := h (by
        intro v hv
        rcases List.mem_cons.mp hv with rfl | hv
        · exact hb
        · exact hws v hv)
      rw [writeBlock_other (Ne.symm hb), writeBlock_other (Ne.symm hb), hd]

end Xv6
