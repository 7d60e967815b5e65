import Xv6.InodeRuns

/-! Entries are unique, counts are right and a valid entry agrees with the disk in every run. An
inode is freed with its last reference only if numbers are not looked up in directories that
outlived their parents. -/
namespace Xv6.Inodes

open Interleaving

variable {md : Mode} {p q : Fin NPROC} {s s' : State} {Ls : Locs} {i : Fin NINODE} {c : System}

/-- Nobody has the lock of an inode whose last reference is given up. -/
theorem put_not_wait (h : Inv md s Ls) (hneed : need md (Ls p) (.put i)) (x : Choice) :
    exec p (.put i) x s ≠ .wait := by
  obtain ⟨hr, -, hl⟩ := hneed
  simp only [exec, put, acquiresleep]
  split_ifs with hlast hlock
  · exfalso
    obtain ⟨q, hq⟩ := Option.isSome_iff_exists.mp hlock
    have hlocked := ((h.table.proc q).locked i).mpr hq
    by_cases hqp : q = p
    · subst hqp
      exact not_mem_erase h hlast.1 (hl hlocked)
    · have htwo := h.backs_two (Ne.symm hqp) hr ((h.table.proc q).backed i hlocked)
      omega
  · intro h'
    cases h'
  · intro h'
    cases h'

variable {n : ℕ} {x : Choice}

/-- The operation writes inodes or contents. -/
def writesDisk : {β : Type} → Op β → Bool
  | _, .itrunc _ => true
  | _, .free _ => true
  | _, .link _ _ _ => true
  | _, .change _ _ => true
  | _, .erase _ _ => true
  | _, .ialloc _ _ => true
  | _, .write _ _ _ _ => true
  | _, _ => false

theorem forkFiles_disk {np : Fin NPROC} {fds : List (Fin NOFILE)} {u : Unit}
    (hexec : forkFiles p np fds s = .done u s') : s'.dinode = s.dinode ∧ s'.data = s.data := by
  induction fds generalizing s with
  | nil =>
    cases hexec
    exact ⟨rfl, rfl⟩
  | cons fd fds ih =>
    unfold forkFiles at hexec
    split at hexec
    · exact ih hexec
    · split_ifs at hexec
      obtain ⟨hdinode, hdata⟩ := ih hexec
      exact ⟨hdinode, hdata⟩

theorem exec_disk {β : Type} {o : Op β} {b : β} (ho : writesDisk o = false)
    (hexec : exec p o x s = .done b s') : s'.dinode = s.dinode ∧ s'.data = s.data := by
  cases o with
  | itrunc | free | link | change | erase | ialloc | write => cases ho
  | fork np =>
    simp only [exec, fork] at hexec
    split_ifs at hexec
    split at hexec
    · next hloop =>
      split at hexec
      · cases hexec
      · cases hexec
        obtain ⟨hdinode, hdata⟩ := forkFiles_disk hloop
        exact ⟨hdinode, hdata⟩
    · next hnot => exact absurd hexec (hnot _ _)
  | panic msg => cases hexec
  | iget m | igetNew m =>
    simp only [exec, iget] at hexec
    split at hexec
    · cases hexec
      exact ⟨rfl, rfl⟩
    · split at hexec
      · cases hexec
        exact ⟨rfl, rfl⟩
      · cases hexec
  | dupCwd | takeCwd | lookup _ _ | isdirempty _ | filealloc | fdalloc _ =>
    simp only [exec, lookup, filealloc, fdalloc] at hexec
    repeat' (split at hexec)
    all_goals
      first
      | cases hexec; done
      | cases hexec
        exact ⟨rfl, rfl⟩
  | dupFile fd =>
    simp only [exec, dupFile, fdalloc] at hexec
    split at hexec
    · cases hexec
      exact ⟨rfl, rfl⟩
    · cases hfind : fdIndices.find? fun fd => (s.proc p).ofile fd = none with
      | none =>
        rw [hfind] at hexec
        cases hexec
        exact ⟨rfl, rfl⟩
      | some fd' =>
        rw [hfind] at hexec
        dsimp only at hexec
        split_ifs at hexec
        cases hexec
        exact ⟨rfl, rfl⟩
  | acquire _ _ | load _ | unlock _ | put _ | dropFile _ =>
    simp only [exec, acquiresleep, load, put, dropFile] at hexec
    split_ifs at hexec
    all_goals
      cases hexec
      exact ⟨rfl, rfl⟩
  | _ =>
    cases hexec
    exact ⟨rfl, rfl⟩

end Xv6.Inodes
