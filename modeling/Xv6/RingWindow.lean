import Mathlib.Data.Nat.ModEq

/-! Queues in a ring of `n` places. The place of an element is its counter modulo `n`; a counter
only goes up and wraps around at a multiple of `n`. -/
namespace RingWindow
open Function

variable {α : Type} {n : ℕ} {ring : ℕ → α} {lo : ℕ} {xs ys : List α} {x : α}

/-- The elements `xs` are in the ring, from the counter value `lo` on. -/
structure Window (n : ℕ) (ring : ℕ → α) (lo : ℕ) (xs : List α) : Prop where
  fits : xs.length ≤ n
  place : ∀ i (h : i < xs.length), xs[i] = ring ((lo+i)%n)

theorem Window.nil (n : ℕ) (ring : ℕ → α) (lo : ℕ) : Window n ring lo [] :=
  ⟨Nat.zero_le n, fun i hi => absurd hi (Nat.not_lt_zero i)⟩

theorem Window.congr {lo' : ℕ} (h : Window n ring lo xs) (hlo : lo%n = lo'%n) :
    Window n ring lo' xs := by
  apply Window.mk h.fits
  intro i hi
  rw [h.place i hi, Nat.add_mod, hlo, ← Nat.add_mod]

theorem place_ne {i j : ℕ} (hij : i < j) (hj : j < i+n) : (lo+i)%n ≠ (lo+j)%n := by
  intro he
  have hdvd : n ∣ lo+j-(lo+i) := (Nat.modEq_iff_dvd' (by omega)).mp he
  have hle := Nat.le_of_dvd (by omega) hdvd
  omega

theorem Window.push (h : Window n ring lo xs) (hroom : xs.length < n) (x : α) :
    Window n (update ring ((lo+xs.length)%n) x) lo (xs ++ [x]) := by
  apply Window.mk
  · rw [List.length_append, List.length_singleton]
    omega
  intro i hi
  rw [List.length_append, List.length_singleton] at hi
  by_cases hlast : i = xs.length
  · subst hlast
    rw [update_self]
    exact List.getElem_concat_length rfl _
  · have hlt : i < xs.length := by omega
    rw [update_of_ne (place_ne hlt (by omega)), List.getElem_append_left hlt]
    exact h.place i hlt

theorem Window.head (h : Window n ring lo (x :: xs)) : x = ring (lo%n) :=
  h.place 0 (Nat.succ_pos _)

theorem Window.tail (h : Window n ring lo (x :: xs)) : Window n ring (lo+1) xs := by
  apply Window.mk
  · have hfits := h.fits
    rw [List.length_cons] at hfits
    omega
  intro i hi
  have hplace := h.place (i+1) (Nat.succ_lt_succ hi)
  rw [List.getElem_cons_succ] at hplace
  rw [hplace, Nat.add_assoc, Nat.add_comm 1 i]

theorem Window.last (h : Window n ring lo (xs ++ [x])) : x = ring ((lo+xs.length)%n) := by
  have hplace := h.place xs.length (by simp)
  rw [List.getElem_concat_length rfl] at hplace
  exact hplace

theorem Window.init (h : Window n ring lo (xs ++ ys)) : Window n ring lo xs := by
  have hfits := h.fits
  rw [List.length_append] at hfits
  apply Window.mk (by omega)
  intro i hi
  have hplace := h.place i (by rw [List.length_append]; omega)
  rwa [List.getElem_append_left hi] at hplace

end RingWindow
