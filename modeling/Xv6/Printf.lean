import Mathlib.Data.Nat.Digits.Lemmas

/-! `printf` of the kernel (`printf.c`) and `vprintf` of the user library. What they send is kept
with its origin, because the two have different digits and pass the argument of `%c` at different
widths. -/
namespace Xv6.Printf

/-- One call of `consputc` or `putc`: a character, an entry of `digits`, or the argument of `%c`. -/
inductive Sent
  | char (c : Char)
  | digit (d : ℕ)
  | arg (w : BitVec 32)

def digits : List ℕ := "0123456789abcdef".toList.map Char.toNat
def Ulib.digits : List ℕ := "0123456789ABCDEF".toList.map Char.toNat

/-- What `consputc` is given, an `int`. -/
def Sent.kernel : Sent → ℕ
  | .char c => c.toNat
  | .digit d => digits.getD d 0
  | .arg w => w.toNat

/-- What `putc` is given, a `char`. -/
def Sent.user : Sent → ℕ
  | .char c => c.toNat
  | .digit d => Ulib.digits.getD d 0
  | .arg w => w.toNat % 2^8

/-! ## Numbers -/

def BUFLEN : ℕ := 20

/-- `do { buf[i++] = digits[x % base]; } while((x /= base) != 0);` with `room` bytes left in `buf`:
there is no result if it writes behind the end. -/
def digitLoop (base : ℕ) : ℕ → ℕ → Option (List ℕ)
  | 0, _ => none
  | room+1, x =>
    if x/base = 0 then some [x%base] else (digitLoop base room (x/base)).map (x%base :: ·)

/-- The digits and the sign are stored in `buf`, and sent from its end. -/
def printBuf (x : BitVec 64) (base : ℕ) (neg : Bool) : Option (List Sent) := do
  let buf ← digitLoop base BUFLEN x.toNat
  let out := (buf.map Sent.digit).reverse
  if neg then
    if buf.length < BUFLEN then some (.char '-' :: out) else none
  else some out

def printint (xx : BitVec 64) (base : ℕ) (sign : Bool) : Option (List Sent) :=
  let sign := sign && xx.slt 0
  printBuf (if sign then -xx else xx) base sign

def Ulib.printint (xx : BitVec 64) (base : ℕ) (sgn : Bool) : Option (List Sent) :=
  if sgn && xx.slt 0 then printBuf (-xx) base true else printBuf xx base false

/-- The value that is to be printed. -/
def valueOf (xx : BitVec 64) (sign : Bool) : ℤ := if sign then xx.toInt else xx.toNat

def readDigits (table : List ℕ) (base : ℕ) (text : List ℕ) : ℕ :=
  text.foldl (fun v c => v*base+table.idxOf c) 0

def readInt (table : List ℕ) (base : ℕ) (text : List ℕ) : ℤ :=
  if text.head? = some '-'.toNat then -(readDigits table base text.tail : ℤ)
  else readDigits table base text

/-- `text` is the numeral of `v` and fits in `buf`. -/
structure Numeral (table : List ℕ) (base : ℕ) (v : ℤ) (text : List ℕ) : Prop where
  length : text.length ≤ BUFLEN
  canonical : ∃ ds, text = (if v < 0 then ['-'.toNat] else []) ++ ds ∧ ds ≠ [] ∧
    (ds.head? = some '0'.toNat → ds = ['0'.toNat]) ∧ ∀ c ∈ ds, ∃ d < base, c = table.getD d 0
  value : readInt table base text = v

/-- The digits of `x`, the lowest first. -/
def digitsOf (base x : ℕ) : List ℕ := if x = 0 then [0] else Nat.digits base x

section
variable {base : ℕ} (hb : 1 < base) {x : ℕ}
include hb

theorem digitLoop_eq {room : ℕ} (hroom : 0 < room) (hx : x < base^room) :
    digitLoop base room x = some (digitsOf base x) := by
  induction room generalizing x with
  | zero => omega
  | succ room ih =>
    rw [digitLoop, digitsOf]
    split_ifs with hlast hzero hzero
    · rw [hzero, Nat.zero_mod]
    · have hlt : x < base := by
        rcases Nat.div_eq_zero_iff.mp hlast with h | h
        · omega
        · exact h
      rw [Nat.mod_eq_of_lt hlt, Nat.digits_of_lt base x hzero hlt]
    · rw [hzero, Nat.zero_div] at hlast
      exact absurd rfl hlast
    · have hnext : x/base < base^room := by
        apply Nat.div_lt_of_lt_mul
        rw [← Nat.pow_succ']
        exact hx
      have hpos : 0 < room := by
        by_contra h
        obtain rfl : room = 0 := by omega
        exact hlast (Nat.lt_one_iff.mp hnext)
      rw [ih hpos hnext, digitsOf, if_neg hlast, Nat.digits_def' hb (Nat.pos_of_ne_zero hzero)]
      rfl

theorem digitsOf_lt : ∀ d ∈ digitsOf base x, d < base := by
  intro d hd
  unfold digitsOf at hd
  split_ifs at hd with hx
  · rw [List.mem_singleton.mp hd]
    omega
  · exact Nat.digits_lt_base hb hd

theorem length_digitsOf {k : ℕ} (hk : 0 < k) (hx : x < base^k) : (digitsOf base x).length ≤ k := by
  unfold digitsOf
  split_ifs
  · exact hk
  · exact (Nat.digits_length_le_iff hb x).mpr hx

omit hb in
theorem ofDigits_digitsOf : Nat.ofDigits base (digitsOf base x) = x := by
  unfold digitsOf
  split_ifs with hx
  · rw [hx, Nat.ofDigits_singleton]
  · exact Nat.ofDigits_digits base x

omit hb in
theorem digitsOf_ne_nil : digitsOf base x ≠ [] := by
  unfold digitsOf
  split_ifs with hx
  · simp
  · exact Nat.digits_ne_nil_iff_ne_zero.mpr hx

omit hb in
theorem digitsOf_eq_zero (h : (digitsOf base x).getLast? = some 0) : digitsOf base x = [0] := by
  unfold digitsOf at h ⊢
  split_ifs at h ⊢ with hx
  · rfl
  · rw [List.getLast?_eq_getLast_of_ne_nil (Nat.digits_ne_nil_iff_ne_zero.mpr hx)] at h
    exact absurd (Option.some.inj h) (Nat.getLast_digit_ne_zero base hx)

end

/-- `f` sends the entries of `table`, which has every digit in its place. -/
structure Table (table : List ℕ) (f : Sent → ℕ) : Prop where
  digit : ∀ d, f (.digit d) = table.getD d 0
  minus : f (.char '-') = '-'.toNat
  zero : table.getD 0 0 = '0'.toNat
  index : ∀ d < 16, table.idxOf (table.getD d 0) = d
  noMinus : ∀ d < 16, table.getD d 0 ≠ '-'.toNat

theorem kernel_table : Table digits Sent.kernel :=
  ⟨fun _ => rfl, rfl, rfl, by decide, by decide⟩

theorem user_table : Table Ulib.digits Sent.user :=
  ⟨fun _ => rfl, rfl, rfl, by decide, by decide⟩

section
variable {table : List ℕ} {f : Sent → ℕ} (h : Table table f) {base : ℕ} (hb : base = 10 ∨ base = 16)
include h hb

theorem Table.readDigits_eq {ds : List ℕ} (hds : ∀ d ∈ ds, d < base) :
    readDigits table base ((ds.map Sent.digit).reverse.map f) = Nat.ofDigits base ds := by
  rw [readDigits, List.foldl_map, List.foldl_reverse, List.foldr_map, Nat.ofDigits_eq_foldr]
  induction ds with
  | nil => rfl
  | cons d ds ih =>
    have hd := hds d List.mem_cons_self
    simp only [List.foldr_cons]
    rw [ih fun d hd => hds d (List.mem_cons_of_mem _ hd), h.digit, h.index d (by omega),
      Nat.add_comm, Nat.mul_comm, Nat.cast_id]

theorem Table.canonical (x : ℕ) {text : List ℕ}
    (htext : text = ((digitsOf base x).map Sent.digit).reverse.map f) :
    text ≠ [] ∧ (text.head? = some '0'.toNat → text = ['0'.toNat]) ∧
      ∀ c ∈ text, ∃ d < base, c = table.getD d 0 := by
  have hone : 1 < base := by omega
  subst htext
  refine ⟨by simp [digitsOf_ne_nil], ?_, ?_⟩
  · intro hhead
    rw [List.head?_map, List.head?_reverse, List.getLast?_map, Option.map_map,
      Option.map_eq_some_iff] at hhead
    obtain ⟨d, hlast, hd⟩ := hhead
    have hlt := digitsOf_lt hone d (List.mem_of_getLast? hlast)
    rw [Function.comp_apply, h.digit, ← h.zero] at hd
    have hzero := congrArg table.idxOf hd
    rw [h.index d (by omega), h.index 0 (by omega)] at hzero
    rw [hzero] at hlast
    simp [digitsOf_eq_zero hlast, h.digit, ← h.zero]
  · intro c hc
    simp only [List.mem_map, List.mem_reverse] at hc
    obtain ⟨_, ⟨d, hd, rfl⟩, rfl⟩ := hc
    exact ⟨d, digitsOf_lt hone d hd, h.digit d⟩

theorem Table.printBuf_numeral {x : BitVec 64} {neg : Bool}
    (hneg : neg = true → x ≠ 0 ∧ x.toNat ≤ 2^63) :
    ∃ out, printBuf x base neg = some out ∧
      Numeral table base (if neg then -(x.toNat : ℤ) else x.toNat) (out.map f) := by
  have hone : 1 < base := by omega
  have hroom : x.toNat < base^BUFLEN := by
    rcases hb with rfl | rfl <;> unfold BUFLEN <;> omega
  obtain ⟨hne, hzero, hmem⟩ := h.canonical hb x.toNat rfl
  have hread := h.readDigits_eq hb (digitsOf_lt hone (x := x.toNat))
  rw [ofDigits_digitsOf] at hread
  rw [printBuf, digitLoop_eq hone (by decide) hroom]
  cases neg with
  | false =>
    refine ⟨_, rfl, ?_, ⟨_, by simp, hne, hzero, hmem⟩, ?_⟩
    · simpa using length_digitsOf hone (by decide) hroom
    · rw [readInt, if_neg, hread]
      · rfl
      · intro hhead
        obtain ⟨d, hd, hc⟩ := hmem _ (List.mem_of_head? hhead)
        exact h.noMinus d (by omega) hc.symm
  | true =>
    obtain ⟨hx, hle⟩ := hneg rfl
    have hpos : 0 < x.toNat := by bv_omega
    have hlen : (digitsOf base x.toNat).length ≤ BUFLEN-1 := by
      apply length_digitsOf hone (by decide)
      rcases hb with rfl | rfl <;> unfold BUFLEN <;> omega
    have hlt : (digitsOf base x.toNat).length < BUFLEN := by
      unfold BUFLEN at hlen ⊢
      omega
    refine ⟨.char '-' :: ((digitsOf base x.toNat).map Sent.digit).reverse, ?_, ?_,
      ⟨_, ?_, hne, hzero, hmem⟩, ?_⟩
    · simp [hlt]
    · simpa using hlt
    · simp [hpos, h.minus]
    · rw [readInt, if_pos (by simp [h.minus]), List.map_cons, List.tail_cons, hread]
      rfl

end

theorem valueOf_neg {xx : BitVec 64} (h : xx.slt 0 = true) :
    -((-xx).toNat : ℤ) = xx.toInt ∧ -xx ≠ 0 ∧ (-xx).toNat ≤ 2^63 := by
  have hlt : xx.toInt < 0 := by simpa [BitVec.slt] using h
  rw [BitVec.toInt_eq_toNat_cond] at hlt ⊢
  split_ifs at hlt ⊢ <;> bv_omega

theorem valueOf_nonneg {xx : BitVec 64} (h : xx.slt 0 = false) : (xx.toNat : ℤ) = xx.toInt := by
  have hle : 0 ≤ xx.toInt := by simpa [BitVec.slt] using h
  rw [BitVec.toInt_eq_toNat_cond] at hle ⊢
  split_ifs at hle ⊢ <;> bv_omega

theorem user_printint_eq (xx : BitVec 64) (base : ℕ) (sign : Bool) :
    Ulib.printint xx base sign = printint xx base sign := by
  unfold Ulib.printint printint
  cases sign && xx.slt 0 <;> rfl

theorem Table.printint_numeral {table : List ℕ} {f : Sent → ℕ} (h : Table table f) {base : ℕ}
    (hb : base = 10 ∨ base = 16) (xx : BitVec 64) (sign : Bool) :
    ∃ out, printint xx base sign = some out ∧ Numeral table base (valueOf xx sign) (out.map f) := by
  unfold printint valueOf
  cases sign with
  | false => exact @printBuf_numeral _ _ h _ hb xx false fun h' => by cases h'
  | true =>
    cases hs : xx.slt 0 with
    | false =>
      have hout := @printBuf_numeral _ _ h _ hb xx false fun h' => by cases h'
      rw [← valueOf_nonneg hs]
      exact hout
    | true =>
      obtain ⟨hv, hne⟩ := valueOf_neg hs
      have hout := @printBuf_numeral _ _ h _ hb (-xx) true fun _ => hne
      rw [← hv]
      exact hout

/-- Both `printint` send the numeral of the value, and `buf` holds it. -/
theorem printint_exact (xx : BitVec 64) (base : ℕ) (hb : base = 10 ∨ base = 16) (sign : Bool) :
    (∃ out, printint xx base sign = some out ∧
      Numeral digits base (valueOf xx sign) (out.map Sent.kernel)) ∧
    ∃ out, Ulib.printint xx base sign = some out ∧
      Numeral Ulib.digits base (valueOf xx sign) (out.map Sent.user) := by
  refine ⟨kernel_table.printint_numeral hb xx sign, ?_⟩
  rw [user_printint_eq]
  exact user_table.printint_numeral hb xx sign

/-- The most negative value. -/
theorem printint_exact_most_negative : valueOf 0x8000000000000000#64 true = -2^63 ∧
    (∃ out, printint 0x8000000000000000#64 10 true = some out ∧
      Numeral digits 10 (valueOf 0x8000000000000000#64 true) (out.map Sent.kernel)) ∧
    ∃ out, Ulib.printint 0x8000000000000000#64 10 true = some out ∧
      Numeral Ulib.digits 10 (valueOf 0x8000000000000000#64 true) (out.map Sent.user) :=
  ⟨by decide, printint_exact 0x8000000000000000#64 10 (.inl rfl) true⟩

/-! ## Formats -/

/-- `consputc('0'); consputc('x');` and sixteen digits from the top, in both printers. -/
def printptr (x : BitVec 64) : List Sent :=
  let rec digits : ℕ → BitVec 64 → List Sent
    | 0, _ => []
    | n+1, x => .digit (x >>> 60).toNat :: digits n (x <<< 4)
  .char '0' :: .char 'x' :: digits 16 x

inductive Conv
  | num (long hex sign : Bool)
  | ptr
  | char
  | str
  | percent
  | unknown

/-- The conversion after a `%`, and how many further characters belong to it. The two sources have
the same chain of tests. -/
def conversion (c0 c1 c2 : Char) : Conv × ℕ :=
  if c0 = 'd' then (.num false false true, 0)
  else if c0 = 'l' ∧ c1 = 'd' then (.num true false true, 1)
  else if c0 = 'l' ∧ c1 = 'l' ∧ c2 = 'd' then (.num true false true, 2)
  else if c0 = 'u' then (.num false false false, 0)
  else if c0 = 'l' ∧ c1 = 'u' then (.num true false false, 1)
  else if c0 = 'l' ∧ c1 = 'l' ∧ c2 = 'u' then (.num true false false, 2)
  else if c0 = 'x' then (.num false true false, 0)
  else if c0 = 'l' ∧ c1 = 'x' then (.num true true false, 1)
  else if c0 = 'l' ∧ c1 = 'l' ∧ c2 = 'x' then (.num true true false, 2)
  else if c0 = 'p' then (.ptr, 0)
  else if c0 = 'c' then (.char, 0)
  else if c0 = 's' then (.str, 0)
  else if c0 = '%' then (.percent, 0)
  else (.unknown, 0)

/-- An argument list: the words that `va_arg` takes one after the other, and the texts that pointers
to characters point to. -/
structure VaList where
  word : ℕ → BitVec 64
  text : BitVec 64 → List Char

/-- `va_arg` at `int`, `uint32` or `uint64`. -/
def vaArg (long sign : Bool) (w : BitVec 64) : BitVec 64 :=
  if long then w else if sign then (w.setWidth 32).signExtend 64 else (w.setWidth 32).setWidth 64

def Conv.takes : Conv → ℕ
  | .percent | .unknown => 0
  | _ => 1

/-- What one conversion sends, with the printer's `printint`. -/
def Conv.sends (printint : BitVec 64 → ℕ → Bool → Option (List Sent)) (ap : VaList) (n : ℕ)
    (c0 : Char) : Conv → Option (List Sent)
  | .num long hex sign =>
    printint (vaArg long sign (ap.word n)) (if hex then 16 else 10) sign
  | .ptr => some (printptr (ap.word n))
  | .char => some [.arg ((ap.word n).setWidth 32)]
  | .str => some ((if ap.word n = 0 then "(null)".toList else ap.text (ap.word n)).map .char)
  | .percent => some [.char '%']
  | .unknown => some [.char '%', .char c0]

/-- The loop of the kernel's `printf`, which looks ahead from the `%`. The format is the rest of the
string, its end reads as NUL, and `n` arguments are taken. -/
def printfLoop (ap : VaList) : List Char → ℕ → Option (List Sent)
  | [], _ => some []
  | cx :: fmt, n =>
    if cx = '\x00' then some []
    else if cx ≠ '%' then (printfLoop ap fmt n).map (.char cx :: ·)
    else
      let c0 := fmt.getD 0 '\x00'
      let c1 := if c0 ≠ '\x00' then fmt.getD 1 '\x00' else '\x00'
      let c2 := if c1 ≠ '\x00' then fmt.getD 2 '\x00' else '\x00'
      if c0 = '\x00' then some []
      else do
        let conv := conversion c0 c1 c2
        let out ← conv.1.sends printint ap n c0
        let rest ← printfLoop ap (fmt.drop (1+conv.2)) (n+conv.1.takes)
        some (out ++ rest)
termination_by fmt => fmt.length
decreasing_by all_goals simp

def printf (fmt : List Char) (ap : VaList) : Option (List Sent) := printfLoop ap fmt 0

/-- The loop of the user library's `vprintf`, where `state` says that the last character was the `%`
of a conversion. -/
def vprintfLoop (ap : VaList) : Bool → List Char → ℕ → Option (List Sent)
  | _, [], _ => some []
  | state, c0 :: fmt, n =>
    if c0 = '\x00' then some []
    else if state = false then
      if c0 = '%' then vprintfLoop ap true fmt n else (vprintfLoop ap false fmt n).map (.char c0 :: ·)
    else do
      let c1 := if c0 ≠ '\x00' then fmt.getD 0 '\x00' else '\x00'
      let c2 := if c1 ≠ '\x00' then fmt.getD 1 '\x00' else '\x00'
      let conv := conversion c0 c1 c2
      let out ← conv.1.sends Ulib.printint ap n c0
      let rest ← vprintfLoop ap false (fmt.drop conv.2) (n+conv.1.takes)
      some (out ++ rest)
termination_by _ fmt => fmt.length
decreasing_by all_goals simp

def vprintf (fmt : List Char) (ap : VaList) : Option (List Sent) := vprintfLoop ap false fmt 0

/-- The `%` that one loop passes at once is a turn of the other loop. -/
theorem vprintfLoop_eq (ap : VaList) (fmt : List Char) (n : ℕ) :
    vprintfLoop ap false fmt n = printfLoop ap fmt n := by
  have hprint : Ulib.printint = printint := by
    funext xx base sign
    exact user_printint_eq xx base sign
  fun_induction printfLoop ap fmt n with
  | case1 n => rw [vprintfLoop]
  | case2 fmt n => rw [vprintfLoop, if_pos rfl]
  | case3 cx fmt n hz hc ih => rw [vprintfLoop, if_neg hz, if_pos rfl, if_neg hc, ih]
  | case4 cx fmt n hz hc c0 hend =>
    rw [vprintfLoop, if_neg hz, if_pos rfl, if_pos (not_ne_iff.mp hc)]
    cases fmt with
    | nil => rw [vprintfLoop]
    | cons c fmt =>
      have hend : c = '\x00' := hend
      rw [vprintfLoop, if_pos hend]
  | case5 cx fmt n hz hc c0 c1 c2 hend conv ih =>
    rw [vprintfLoop, if_neg hz, if_pos rfl, if_pos (not_ne_iff.mp hc)]
    cases fmt with
    | nil => exact absurd rfl hend
    | cons c fmt =>
      have hend : c ≠ '\x00' := hend
      have hdrop : List.drop (1+conv.2) (c :: fmt) = fmt.drop conv.2 := by
        rw [Nat.add_comm, List.drop_succ_cons]
      rw [vprintfLoop, if_neg hend, hprint, ← ih, hdrop]
      rfl

theorem Conv.sends_some (conv : Conv) (ap : VaList) (n : ℕ) (c0 : Char) :
    ∃ out, conv.sends printint ap n c0 = some out := by
  cases conv with
  | num long hex sign =>
    have hbase : (if hex then 16 else 10) = 10 ∨ (if hex then 16 else 10) = 16 := by
      cases hex <;> simp
    obtain ⟨out, hout, -⟩ := kernel_table.printint_numeral hbase (vaArg long sign (ap.word n)) sign
    exact ⟨out, hout⟩
  | _ => exact ⟨_, rfl⟩

theorem printfLoop_some (ap : VaList) (fmt : List Char) (n : ℕ) :
    ∃ out, printfLoop ap fmt n = some out := by
  fun_induction printfLoop ap fmt n with
  | case1 | case2 | case4 => exact ⟨_, rfl⟩
  | case3 cx fmt n hz hc ih =>
    obtain ⟨out, ih⟩ := ih
    exact ⟨_, by rw [ih]; rfl⟩
  | case5 cx fmt n hz hc c0 c1 c2 hend conv ih =>
    obtain ⟨out, hout⟩ := conv.1.sends_some ap n c0
    obtain ⟨rest, ih⟩ := ih
    exact ⟨out ++ rest, by rw [hout, ih]; rfl⟩

/-- Two characters that are the same, or the two forms of a digit above nine. -/
def SameUpToCase (a b : ℕ) : Prop := a = b ∨ ∃ k < 6, a = 'a'.toNat+k ∧ b = 'A'.toNat+k

theorem digits_same (d : ℕ) : SameUpToCase (digits.getD d 0) (Ulib.digits.getD d 0) := by
  have hsmall : ∀ d < 16, digits.getD d 0 = Ulib.digits.getD d 0 ∨
      ∃ k < 6, digits.getD d 0 = 'a'.toNat+k ∧ Ulib.digits.getD d 0 = 'A'.toNat+k := by decide
  by_cases hd : d < 16
  · exact hsmall d hd
  · have hlen : digits.length ≤ d ∧ Ulib.digits.length ≤ d := ⟨not_lt.mp hd, not_lt.mp hd⟩
    exact Or.inl (by simp [hlen.1, hlen.2])

/-- The two printers send the same, digit for digit, if the arguments of `%c` are characters. -/
theorem printf_agree (fmt : List Char) (ap : VaList)
    (hchar : ∀ out, printf fmt ap = some out → ∀ w, .arg w ∈ out → w.toNat < 2^8) :
    ∃ out, printf fmt ap = some out ∧ vprintf fmt ap = some out ∧
      List.Forall₂ SameUpToCase (out.map Sent.kernel) (out.map Sent.user) := by
  obtain ⟨out, hout⟩ := printfLoop_some ap fmt 0
  refine ⟨out, hout, (vprintfLoop_eq ap fmt 0).trans hout, ?_⟩
  have hargs := hchar out hout
  rw [List.forall₂_map_left_iff, List.forall₂_map_right_iff, List.forall₂_same]
  intro x hx
  cases x with
  | char c => exact Or.inl rfl
  | digit d => exact digits_same d
  | arg w => exact Or.inl (Nat.mod_eq_of_lt (hargs w hx)).symm

/-- `%c` of an `A`, and a `%` at the end. -/
theorem printf_agree_char :
    ∃ out, printf "%c%".toList ⟨fun _ => 65, fun _ => []⟩ = some out ∧
      vprintf "%c%".toList ⟨fun _ => 65, fun _ => []⟩ = some out ∧
      List.Forall₂ SameUpToCase (out.map Sent.kernel) (out.map Sent.user) := by
  have hout : printf "%c%".toList ⟨fun _ => 65, fun _ => []⟩ = some [.arg 65] := by
    simp [printf, printfLoop, conversion, Conv.sends]
  refine printf_agree _ _ fun out h w hw => ?_
  rw [hout] at h
  cases h
  cases List.mem_singleton.mp hw
  decide

end Xv6.Printf
