import Mathlib.Computability.Language
import Xv6.Memmove

/-! `grep`: the matcher, and the loop that cuts the input into lines. Strings are the lists of the
characters before their NUL. -/
namespace Xv6.Grep
open Computability Bytes Function

/-! ## The matcher -/

mutual

/-- Search for `re` at the beginning of `text`. -/
def matchhere (re text : List Char) : Bool :=
  match re with
  | [] => true
  | c :: re =>
    if re.head? = some '*' then matchstar c re.tail text
    else if c = '$' ∧ re = [] then text.isEmpty
    else
      match text with
      | [] => false
      | t :: text => (c = '.' ∨ c = t) && matchhere re text
termination_by (re.length, text.length, 0)
decreasing_by all_goals simp [Prod.lex_def]; try omega

/-- Search for `c*re` at the beginning of `text`. -/
def matchstar (c : Char) (re text : List Char) : Bool :=
  matchhere re text ||
  match text with
  | [] => false
  | t :: text => (t = c ∨ c = '.') && matchstar c re text
termination_by (re.length, text.length, 1)
decreasing_by all_goals simp [Prod.lex_def]

end

/-- The loop of `match`, which looks at the empty string too. -/
def matchLoop (re : List Char) : List Char → Bool
  | [] => matchhere re []
  | t :: text => matchhere re (t :: text) || matchLoop re text

/-- The source's `match`. -/
def reMatch (re text : List Char) : Bool :=
  if re.head? = some '^' then matchhere re.tail text else matchLoop re text

/-! ## Its language -/

inductive Item
  | star (c : Char)
  | one (c : Char)
  | atEnd

/-- A pattern without its `^`, read from left to right. -/
def items : List Char → List Item
  | [] => []
  | c :: re =>
    if re.head? = some '*' then .star c :: items re.tail
    else if c = '$' ∧ re = [] then [.atEnd]
    else .one c :: items re
termination_by re => re.length
decreasing_by all_goals simp; try omega

/-- The texts of one character that `c` stands for. -/
def atom (c : Char) : Language Char := { w | ∃ t, w = [t] ∧ (c = '.' ∨ c = t) }

def Item.language : Item → Language Char
  | .star c => (atom c)∗
  | .one c => atom c
  | .atEnd => 1

/-- What a pattern without its `^` generates. -/
def language (re : List Char) : Language Char := ((items re).map Item.language).prod

theorem mem_kstar_atom (c : Char) (w : List Char) :
    w ∈ (atom c)∗ ↔ ∀ t ∈ w, c = '.' ∨ c = t := by
  induction w with
  | nil => simp [Language.nil_mem_kstar]
  | cons t w ih =>
    rw [← Language.one_add_self_mul_kstar_eq_kstar, Language.mem_add, Language.mem_one,
      Language.mem_mul]
    constructor
    · rintro (h | ⟨_, ⟨t', rfl, ht⟩, v, hv, heq⟩)
      · cases h
      · cases heq
        exact List.forall_mem_cons.mpr ⟨ht, ih.mp hv⟩
    · intro h
      obtain ⟨ht, hw⟩ := List.forall_mem_cons.mp h
      exact .inr ⟨[t], ⟨t, rfl, ht⟩, w, ih.mpr hw, rfl⟩

/-- The loop tries every split of the text after characters that `c` stands for. -/
theorem matchstar_iff (c : Char) (re text : List Char) :
    matchstar c re text = true ↔
      ∃ u v, text = u ++ v ∧ u ∈ (atom c)∗ ∧ matchhere re v = true := by
  induction text with
  | nil =>
    rw [matchstar, Bool.or_false]
    constructor
    · intro h
      exact ⟨[], [], rfl, Language.nil_mem_kstar _, h⟩
    · rintro ⟨u, v, heq, -, h⟩
      rwa [(List.append_eq_nil_iff.mp heq.symm).2] at h
  | cons t text ih =>
    rw [matchstar, Bool.or_eq_true, Bool.and_eq_true, decide_eq_true_iff, ih]
    constructor
    · rintro (h | ⟨ht, u, v, rfl, hu, h⟩)
      · exact ⟨[], t :: text, rfl, Language.nil_mem_kstar _, h⟩
      · refine ⟨t :: u, v, rfl, (mem_kstar_atom c _).mpr ?_, h⟩
        exact List.forall_mem_cons.mpr ⟨by tauto, (mem_kstar_atom c u).mp hu⟩
    · rintro ⟨u, v, heq, hu, h⟩
      cases u with
      | nil => exact .inl (heq ▸ h)
      | cons t' u =>
        cases heq
        obtain ⟨ht, hu⟩ := List.forall_mem_cons.mp ((mem_kstar_atom c _).mp hu)
        exact .inr ⟨by tauto, u, v, rfl, (mem_kstar_atom c u).mpr hu, h⟩

/-- Some text at the beginning is generated, all of it if the last item is `$`. -/
theorem matchhere_iff (re text : List Char) :
    matchhere re text = true ↔
      ∃ w rest, text = w ++ rest ∧ w ∈ language re ∧ (.atEnd ∈ items re → rest = []) := by
  unfold language
  fun_induction items re generalizing text with
  | case1 =>
    simp [matchhere, Language.mem_one]
  | case2 c re hstar ih =>
    rw [matchhere.eq_def]
    dsimp only
    rw [if_pos hstar, matchstar_iff]
    simp only [ih, List.map_cons, List.prod_cons, Language.mem_mul, List.mem_cons]
    constructor
    · rintro ⟨u, _, rfl, hu, w, rest, rfl, hw, hend⟩
      exact ⟨u ++ w, rest, by simp, ⟨u, hu, w, hw, rfl⟩, by simpa using hend⟩
    · rintro ⟨_, rest, rfl, ⟨u, hu, w, hw, rfl⟩, hend⟩
      exact ⟨u, w ++ rest, by simp, hu, w, rest, rfl, hw, by simpa using hend⟩
  | case3 c re hstar hend =>
    rw [matchhere.eq_def]
    dsimp only
    rw [if_neg hstar, if_pos hend]
    simp [Language.mem_one, Item.language]
  | case4 c re hstar hend ih =>
    rw [matchhere.eq_def]
    dsimp only
    rw [if_neg hstar, if_neg hend]
    cases text with
    | nil =>
      refine iff_of_false Bool.false_ne_true ?_
      rintro ⟨_, rest, heq, ⟨_, ⟨t, rfl, -⟩, w, -, rfl⟩, -⟩
      cases heq
    | cons t text =>
      rw [Bool.and_eq_true, decide_eq_true_iff, ih]
      constructor
      · rintro ⟨ht, w, rest, rfl, hw, hlast⟩
        exact ⟨t :: w, rest, rfl, ⟨[t], ⟨t, rfl, ht⟩, w, hw, rfl⟩, by simpa using hlast⟩
      · rintro ⟨_, rest, heq, ⟨_, ⟨t', rfl, ht⟩, w, hw, rfl⟩, hlast⟩
        cases heq
        exact ⟨ht, w, rest, rfl, hw, by simpa using hlast⟩

theorem matchLoop_iff (re text : List Char) :
    matchLoop re text = true ↔ ∃ u v, text = u ++ v ∧ matchhere re v = true := by
  induction text with
  | nil =>
    constructor
    · exact fun h => ⟨[], [], rfl, h⟩
    · rintro ⟨u, v, heq, h⟩
      rwa [(List.append_eq_nil_iff.mp heq.symm).2] at h
  | cons t text ih =>
    rw [matchLoop, Bool.or_eq_true, ih]
    constructor
    · rintro (h | ⟨u, v, rfl, h⟩)
      · exact ⟨[], t :: text, rfl, h⟩
      · exact ⟨t :: u, v, rfl, h⟩
    · rintro ⟨u, v, heq, h⟩
      cases u with
      | nil => exact .inl (heq ▸ h)
      | cons t' u =>
        cases heq
        exact .inr ⟨u, v, rfl, h⟩

/-- A match is a part of the text that the pattern generates, where `^` and `$` ask for. -/
theorem reMatch_iff (re text : List Char) :
    let body := if re.head? = some '^' then re.tail else re
    reMatch re text = true ↔ ∃ u w v, text = u ++ w ++ v ∧ w ∈ language body ∧
      (re.head? = some '^' → u = []) ∧ (.atEnd ∈ items body → v = []) := by
  intro body
  unfold reMatch
  split_ifs with hcaret
  · have hbody : body = re.tail := if_pos hcaret
    rw [matchhere_iff, hbody]
    constructor
    · rintro ⟨w, v, rfl, hw, hv⟩
      exact ⟨[], w, v, rfl, hw, fun _ => rfl, hv⟩
    · rintro ⟨u, w, v, rfl, hw, hu, hv⟩
      exact ⟨w, v, by rw [hu hcaret, List.nil_append], hw, hv⟩
  · have hbody : body = re := if_neg hcaret
    rw [matchLoop_iff, hbody]
    simp only [matchhere_iff]
    constructor
    · rintro ⟨u, _, rfl, w, v, rfl, hw, hv⟩
      exact ⟨u, w, v, by rw [List.append_assoc], hw, fun h => absurd h hcaret, hv⟩
    · rintro ⟨u, w, v, rfl, hw, -, hv⟩
      exact ⟨u, w ++ v, by rw [List.append_assoc], w, v, rfl, hw, hv⟩

/-! ## The buffer -/

def BUFSIZE : ℕ := 1024

section
variable (buf : BitVec 64)

/-- `buf[i]` -/
def get (mem : Memory Char) (i : ℕ) : Char := mem (buf+BitVec.ofNat 64 i)

/-- `buf[i] = c` -/
def put (mem : Memory Char) (i : ℕ) (c : Char) : Memory Char := update mem (buf+BitVec.ofNat 64 i) c

/-- What `read` stores from `buf+i` on. -/
def store (mem : Memory Char) (i : ℕ) : List Char → Memory Char
  | [] => mem
  | c :: s => store (put buf mem i c) (i+1) s

/-- The string at `buf+p`, with `room` bytes to the end of `buf`. -/
def cstring (mem : Memory Char) : ℕ → ℕ → List Char
  | 0, _ => []
  | room+1, p => if get buf mem p = '\x00' then [] else get buf mem p :: cstring mem room (p+1)

/-- The `n` bytes at `buf+p`. -/
def bytesAt (mem : Memory Char) : ℕ → ℕ → List Char
  | _, 0 => []
  | p, n+1 => get buf mem p :: bytesAt mem (p+1) n

def strchr (c : Char) : List Char → Option ℕ
  | [] => none
  | x :: s => if x = c then some 0 else (strchr c s).map (·+1)

/-- The loop over the lines in `buf`, from `buf+p` on; it gives the memory, `p` and all that is
written. -/
def lineLoop (pattern : List Char) : ℕ → Memory Char → ℕ → List Char →
    Option (Memory Char × ℕ × List Char)
  | 0, _, _, _ => none
  | fuel+1, mem, p, out =>
    match strchr '\n' (cstring buf mem (BUFSIZE-p) p) with
    | none => some (mem, p, out)
    | some k =>
      let q := p+k
      let mem := put buf mem q '\x00'
      if reMatch pattern (cstring buf mem (BUFSIZE-p) p) then
        let mem := put buf mem q '\n'
        lineLoop pattern fuel mem (q+1) (out ++ bytesAt buf mem p (q+1-p))
      else lineLoop pattern fuel mem (q+1) out

/-- The loop over `read`, which takes `want` of what it is asked for and at least one byte. There is
no result if `buf[m]` is outside of `buf`. -/
def grepLoop (pattern : List Char) (want : ℕ → ℕ) : ℕ → List Char → Memory Char → ℕ → List Char →
    Option (List Char)
  | 0, _, _, _, _ => none
  | turns+1, input, mem, m, out =>
    let n := min (want turns+1) (min (BUFSIZE-m-1) input.length)
    if n = 0 then some out
    else if BUFSIZE ≤ m+n then none
    else
      let mem := put buf (store buf mem m (input.take n)) (m+n) '\x00'
      match lineLoop buf pattern BUFSIZE mem 0 out with
      | none => none
      | some (mem, p, out) =>
        let mem := (Ulib.memmove buf (buf+BitVec.ofNat 64 p) (BitVec.ofNat 32 (m+n-p)) mem).2
        grepLoop pattern want turns (input.drop n) mem (m+n-p) out

/-- What `grep` writes. -/
def grep (pattern : List Char) (want : ℕ → ℕ) (input : List Char) (mem : Memory Char) :
    Option (List Char) :=
  grepLoop buf pattern want (input.length+1) input mem 0 []

end

/-! ## Lines -/

/-- The newline-terminated lines. -/
def lines : List Char → List (List Char)
  | [] => []
  | c :: s =>
    if c = '\n' then [] :: lines s
    else match lines s with
      | [] => []
      | l :: ls => (c :: l) :: ls

/-- The lines of `ls` that match, as `grep` writes them. -/
def matched (pattern : List Char) (ls : List (List Char)) : List Char :=
  (ls.filter (reMatch pattern)).flatMap (· ++ ['\n'])

theorem lines_append {l : List Char} (hl : '\n' ∉ l) (s : List Char) :
    lines (l ++ '\n' :: s) = l :: lines s := by
  induction l with
  | nil => simp [lines]
  | cons c l ih =>
    rw [List.mem_cons, not_or] at hl
    rw [List.cons_append, lines, if_neg (Ne.symm hl.1), ih hl.2]

theorem lines_eq_nil {s : List Char} (hs : '\n' ∉ s) : lines s = [] := by
  induction s with
  | nil => rfl
  | cons c s ih =>
    rw [List.mem_cons, not_or] at hs
    rw [lines, if_neg (Ne.symm hs.1), ih hs.2]

theorem strchr_append {c : Char} {l : List Char} (hl : c ∉ l) (s : List Char) :
    strchr c (l ++ c :: s) = some l.length := by
  induction l with
  | nil => simp [strchr]
  | cons x l ih =>
    rw [List.mem_cons, not_or] at hl
    rw [List.cons_append, strchr, if_neg (Ne.symm hl.1), ih hl.2]
    rfl

theorem strchr_eq_none {c : Char} {s : List Char} (hs : c ∉ s) : strchr c s = none := by
  induction s with
  | nil => rfl
  | cons x s ih =>
    rw [List.mem_cons, not_or] at hs
    rw [strchr, if_neg (Ne.symm hs.1), ih hs.2]
    rfl

section
variable {buf : BitVec 64} {mem mem' : Memory Char} {p i j : ℕ} {c : Char}

theorem get_put_self : get buf (put buf mem i c) i = c := update_self ..

theorem get_put_of_ne (hne : j ≠ i) (hi : i < BUFSIZE) (hj : j < BUFSIZE) :
    get buf (put buf mem i c) j = get buf mem j := by
  unfold BUFSIZE at hi hj
  exact update_of_ne (by bv_omega) ..

variable (buf) in
/-- The text `s` is in the buffer from `p` on. -/
def Holds (mem : Memory Char) : ℕ → List Char → Prop
  | _, [] => True
  | p, c :: s => get buf mem p = c ∧ Holds mem (p+1) s

/-- The text is at another place, or in another memory. -/
theorem Holds.copy {s : List Char} (h : Holds buf mem p s) {q : ℕ}
    (hsame : ∀ i < s.length, get buf mem' (q+i) = get buf mem (p+i)) : Holds buf mem' q s := by
  induction s generalizing p q with
  | nil => exact trivial
  | cons c s ih =>
    refine ⟨(hsame 0 (Nat.succ_pos _)).trans h.1, ih h.2 fun i hi => ?_⟩
    rw [Nat.add_assoc, Nat.add_assoc, Nat.add_comm 1]
    exact hsame (i+1) (Nat.succ_lt_succ hi)

theorem holds_append {s t : List Char} :
    Holds buf mem p (s ++ t) ↔ Holds buf mem p s ∧ Holds buf mem (p+s.length) t := by
  induction s generalizing p with
  | nil => simp [Holds]
  | cons c s ih => simp [Holds, ih, and_assoc, Nat.add_assoc, Nat.add_comm 1]

theorem Holds.cstring_eq {s : List Char} (h : Holds buf mem p s) {room : ℕ}
    (hend : get buf mem (p+s.length) = '\x00') (hs : '\x00' ∉ s) (hroom : s.length < room) :
    cstring buf mem room p = s := by
  induction s generalizing p room with
  | nil =>
    cases room with
    | zero => omega
    | succ room => exact if_pos hend
  | cons c s ih =>
    rw [List.mem_cons, not_or] at hs
    rw [List.length_cons] at hroom hend
    cases room with
    | zero => omega
    | succ room =>
      rw [cstring, h.1, if_neg (Ne.symm hs.1),
        ih h.2 (by rwa [Nat.add_assoc, Nat.add_comm 1]) hs.2 (by omega)]

theorem Holds.bytesAt_eq {s : List Char} (h : Holds buf mem p s) :
    bytesAt buf mem p s.length = s := by
  induction s generalizing p with
  | nil => rfl
  | cons c s ih => rw [List.length_cons, bytesAt, h.1, ih h.2]

theorem holds_store {s : List Char} (hend : i+s.length ≤ BUFSIZE) :
    Holds buf (store buf mem i s) i s ∧ ∀ j < i, get buf (store buf mem i s) j = get buf mem j := by
  induction s generalizing i mem with
  | nil => exact ⟨trivial, fun _ _ => rfl⟩
  | cons c s ih =>
    rw [List.length_cons] at hend
    have hnext : i+1+s.length ≤ BUFSIZE := by omega
    obtain ⟨hs, hbefore⟩ := @ih (put buf mem i c) (i+1) hnext
    refine ⟨⟨?_, hs⟩, fun j hj => ?_⟩
    · exact (hbefore i (Nat.lt_succ_self i)).trans get_put_self
    · exact (hbefore j (by omega)).trans (get_put_of_ne (by omega) (by omega) (by omega))

/-- The loop writes the lines of `s` that match and stops at the text after the last newline. -/
theorem lineLoop_eq (pattern : List Char) {fuel : ℕ} {s out : List Char} (h : Holds buf mem p s)
    (hend : get buf mem (p+s.length) = '\x00') (hs : '\x00' ∉ s) (hroom : p+s.length < BUFSIZE)
    (hfuel : s.length < fuel) :
    ∃ mem' k ls, lineLoop buf pattern fuel mem p out = some (mem', p+k, out ++ matched pattern ls) ∧
      k ≤ s.length ∧ '\n' ∉ s.drop k ∧ Holds buf mem' (p+k) (s.drop k) ∧
      ∀ r, lines (s ++ r) = ls ++ lines (s.drop k ++ r) := by
  induction fuel generalizing mem p s out with
  | zero => omega
  | succ fuel ih =>
    rw [lineLoop, h.cstring_eq hend hs (by omega)]
    by_cases hnl : '\n' ∈ s
    · obtain ⟨l, r, rfl, hl⟩ := List.eq_append_cons_of_mem hnl
      rw [List.mem_append, List.mem_cons, not_or, not_or] at hs
      rw [List.length_append, List.length_cons] at hend hroom hfuel
      obtain ⟨hline, hq, hr⟩ := holds_append.mp h
      have hdrop (k : ℕ) : (l ++ '\n' :: r).drop (l.length+1+k) = r.drop k := by
        simp [List.drop_append, Nat.add_assoc, Nat.add_comm 1]
      -- the rest of the loop, with a memory that may have changed up to the newline
      have hrest (mem1 : Memory Char) (out : List Char)
          (hsame : ∀ j, p+l.length < j → j < BUFSIZE → get buf mem1 j = get buf mem j) :
          ∃ mem' k ls, lineLoop buf pattern fuel mem1 (p+l.length+1) out =
              some (mem', p+(l.length+1+k), out ++ matched pattern ls) ∧
            l.length+1+k ≤ (l ++ '\n' :: r).length ∧ '\n' ∉ (l ++ '\n' :: r).drop (l.length+1+k) ∧
            Holds buf mem' (p+(l.length+1+k)) ((l ++ '\n' :: r).drop (l.length+1+k)) ∧
            ∀ t, lines (l ++ '\n' :: r ++ t) =
              l :: ls ++ lines ((l ++ '\n' :: r).drop (l.length+1+k) ++ t) := by
        have hr1 : Holds buf mem1 (p+l.length+1) r :=
          hr.copy fun i hi => hsame _ (by omega) (by omega)
        obtain ⟨mem', k, ls, hloop, hk, hlast, hheld, hlines⟩ := @ih _ _ _ out hr1
          (by rw [hsame _ (by omega) (by omega), ← hend]; congr 1; omega) hs.2.2 (by omega) (by omega)
        refine ⟨mem', k, ls, ?_, ?_, ?_, ?_, fun t => ?_⟩
        · rw [hloop, Nat.add_assoc, Nat.add_assoc, Nat.add_assoc]
        · rw [List.length_append, List.length_cons]
          omega
        · rwa [hdrop]
        · rw [hdrop, ← Nat.add_assoc]
          exact hheld
        · rw [hdrop, List.append_assoc, List.cons_append, lines_append hl, hlines, List.cons_append]
      rw [strchr_append hl]
      dsimp only
      have hput (mem : Memory Char) (c : Char) (j : ℕ) (hj : j ≠ p+l.length) (hlt : j < BUFSIZE) :
          get buf (put buf mem (p+l.length) c) j = get buf mem j := get_put_of_ne hj (by omega) hlt
      have hline1 : Holds buf (put buf mem (p+l.length) '\x00') p l :=
        hline.copy fun i hi => hput mem _ _ (by omega) (by omega)
      rw [hline1.cstring_eq get_put_self hs.1 (by omega)]
      split_ifs with hmatch
      · obtain ⟨mem', k, ls, hloop, hprops⟩ := hrest
          (put buf (put buf mem (p+l.length) '\x00') (p+l.length) '\n')
          (out ++ (l ++ ['\n'])) fun j hj hlt => by
            rw [hput _ _ j (by omega) hlt, hput _ _ j (by omega) hlt]
        have hwritten : Holds buf (put buf (put buf mem (p+l.length) '\x00') (p+l.length) '\n') p
            (l ++ ['\n']) :=
          holds_append.mpr ⟨hline1.copy fun i hi => hput _ _ _ (by omega) (by omega),
            get_put_self, trivial⟩
        have hlen : p+l.length+1-p = (l ++ ['\n']).length := by simp; omega
        refine ⟨mem', l.length+1+k, l :: ls, ?_, hprops⟩
        rw [hlen, hwritten.bytesAt_eq, hloop]
        simp [matched, hmatch]
      · obtain ⟨mem', k, ls, hloop, hprops⟩ := hrest (put buf mem (p+l.length) '\x00') out
          fun j hj hlt => hput _ _ j (by omega) hlt
        refine ⟨mem', l.length+1+k, l :: ls, ?_, hprops⟩
        rw [hloop]
        simp [matched, hmatch]
    · rw [strchr_eq_none hnl]
      exact ⟨mem, 0, [], by simp [matched], Nat.zero_le _, hnl, h, fun r => rfl⟩

theorem matched_append (pattern : List Char) (ls ls' : List (List Char)) :
    matched pattern (ls ++ ls') = matched pattern ls ++ matched pattern ls' := by
  rw [matched, List.filter_append, List.flatMap_append]
  rfl

/-- The loop over the reads, where `t` is the part of a line that is carried over. -/
theorem grepLoop_eq (hbuf : buf.toNat+BUFSIZE ≤ 2^64) (pattern : List Char) (want : ℕ → ℕ)
    {turns : ℕ} {t input out : List Char} (h : Holds buf mem 0 t) (ht : '\n' ∉ t)
    (hnul : '\x00' ∉ t ++ input)
    (hruns : ∀ run, run <:+: t ++ input → '\n' ∉ run → run.length < BUFSIZE-1)
    (hturns : input.length < turns) :
    grepLoop buf pattern want turns input mem t.length out =
      some (out ++ matched pattern (lines (t ++ input))) := by
  induction turns generalizing mem t input out with
  | zero => omega
  | succ turns ih =>
    have hm := hruns t (List.infix_append' [] t input) ht
    unfold BUFSIZE at hm
    rw [grepLoop]
    obtain ⟨n, hn⟩ : ∃ n, n = min (want turns+1) (min (BUFSIZE-t.length-1) input.length) := ⟨_, rfl⟩
    rw [← hn]
    unfold BUFSIZE at hn
    split_ifs with hzero hover
    · have hempty : input = [] := List.length_eq_zero_iff.mp (by omega)
      rw [hempty, List.append_nil, lines_eq_nil ht]
      simp [matched]
    · unfold BUFSIZE at hover
      omega
    · have hle : n ≤ input.length := by omega
      obtain ⟨s, hs⟩ : ∃ s, s = t ++ input.take n := ⟨_, rfl⟩
      have hlen : s.length = t.length+n := by simp [hs, hle]
      have hall : s ++ input.drop n = t ++ input := by
        rw [hs, List.append_assoc, List.take_append_drop]
      -- after the read, `s` is in the buffer and ends with a NUL
      obtain ⟨hread, hbefore⟩ := @holds_store buf mem t.length (input.take n)
        (by rw [List.length_take_of_le hle]; omega)
      have hheld : Holds buf (store buf mem t.length (input.take n)) 0 s := by
        rw [hs]
        refine holds_append.mpr ⟨h.copy fun i hi => hbefore _ (by omega), ?_⟩
        rwa [Nat.zero_add]
      have hheld1 : Holds buf
          (put buf (store buf mem t.length (input.take n)) (t.length+n) '\x00') 0 s :=
        hheld.copy fun i hi => get_put_of_ne (by omega) (by omega) (by omega)
      rw [← hall] at hnul hruns ⊢
      obtain ⟨mem', k, ls, hloop, hk, hlast, hrest, hlines⟩ :=
        @lineLoop_eq _ _ _ pattern BUFSIZE _ out hheld1
          (by rw [Nat.zero_add, hlen]; exact get_put_self)
          (fun hmem => hnul (List.mem_append_left _ hmem)) (by omega) (by omega)
      rw [Nat.zero_add] at hloop hrest
      dsimp only
      rw [hloop]
      dsimp only
      -- the rest of the last line moves to the front
      have hmoved : Moved buf (buf+BitVec.ofNat 64 k) (t.length+n-k) mem' _ :=
        user_memmove_moved (by omega) (by omega) (by unfold BUFSIZE at *; bv_omega) mem'
      have hdrop : (s.drop k).length = t.length+n-k := by rw [List.length_drop, hlen]
      have hfront : Holds buf (Ulib.memmove buf (buf+BitVec.ofNat 64 k)
          (BitVec.ofNat 32 (t.length+n-k)) mem').2 0 (s.drop k) := by
        refine hrest.copy fun i hi => ?_
        have hcell := hmoved.copied i (by omega)
        rw [Nat.zero_add, get, hcell]
        congr 1
        bv_omega
      have hsuffix : s.drop k ++ input.drop n <:+ s ++ input.drop n :=
        ⟨s.take k, by rw [← List.append_assoc, List.take_append_drop]⟩
      have hnext := @ih _ _ _ (out ++ matched pattern ls) hfront hlast
        (fun hmem => hnul (hsuffix.subset hmem))
        (fun run hrun => hruns run (hrun.trans hsuffix.isInfix)) (by rw [List.length_drop]; omega)
      rw [hdrop] at hnext
      rw [hnext, hlines, matched_append, List.append_assoc]

/-- However the reads cut the input, `grep` writes the lines that match, and stays in its buffer. -/
theorem grep_output (buf : BitVec 64) (hbuf : buf.toNat+BUFSIZE ≤ 2^64) (pattern input : List Char)
    (hnul : '\x00' ∉ input)
    (hruns : ∀ run, run <:+: input → '\n' ∉ run → run.length < 1023)
    (want : ℕ → ℕ) (mem : Memory Char) :
    grep buf pattern want input mem = some (matched pattern (lines input)) :=
  grepLoop_eq hbuf pattern want (t := []) trivial List.not_mem_nil hnul hruns (Nat.lt_succ_self _)

/-- Two lines in reads of one byte. -/
theorem grep_output_two_lines :
    grep 0x2000 ['b'] (fun _ => 0) "ab\nc\n".toList (fun _ => 'x') =
      some (matched ['b'] (lines "ab\nc\n".toList)) :=
  grep_output 0x2000 (by decide) ['b'] _ (by decide)
    (fun _ hrun _ => Nat.lt_of_le_of_lt hrun.length_le (by decide)) _ _

end

end Xv6.Grep
