import Mathlib.Data.List.Basic
import Mathlib.Logic.Function.Iterate
import Xv6.StateOutcome

/-! The parser of the shell, user/sh.c, against the grammar of command lines. -/
namespace Xv6.Shell
open StateOutcome

def MAXARGS : ℕ := 10
def O_RDONLY : ℕ := 0
def O_WRONLY : ℕ := 1
def O_CREATE : ℕ := 0x200
def O_TRUNC : ℕ := 0x400

def whitespace : List Char := [' ', '\t', '\r', '\n', '\x0b']
def symbols : List Char := ['<', '|', '>', '&', ';', '(', ')']

/-- A pointer into the input, as what follows there up to the terminating NUL. -/
abbrev Ptr := List Char

/-- A word of the input: where it starts, and where it ends. -/
structure Word where
  q : Ptr
  eq : Ptr
  deriving DecidableEq

/-- `struct cmd`. The arguments are `argv` with `eargv` up to the null pointer. -/
inductive Cmd where
  | exec (argv : List Word)
  | redir (cmd : Cmd) (file : Word) (mode fd : ℕ)
  | pipe (left right : Cmd)
  | list (left right : Cmd)
  | back (cmd : Cmd)
  deriving DecidableEq

/-- `panic` prints a message and exits. `fuel` says that a loop or a recursion has not come to its
end within the given number of rounds. -/
inductive Stop where
  | panic (msg : String)
  | fuel
  deriving DecidableEq

/-- The state is `*ps`. -/
abbrev Parser := EStateM Stop Ptr

/-- `while(s < es && strchr(whitespace, *s)) s++`. -/
def skip (s : Ptr) : Ptr := s.dropWhile whitespace.contains

/-- `while(s < es && !strchr(whitespace, *s) && !strchr(symbols, *s)) s++`. -/
def skipWord (s : Ptr) : Ptr := s.dropWhile fun c => !whitespace.contains c && !symbols.contains c

/-- The `switch` of `gettoken`: the kind of the token that starts here, and where it ends. -/
def scan : Ptr → Char × Ptr
  | [] => ('\x00', [])
  | c :: s =>
    if c = '>' then if s.head? = some '>' then ('+', s.tail) else ('>', s)
    else if symbols.contains c then (c, s)
    else ('a', skipWord (c :: s))

def gettoken : Parser (Char × Word) := fun s =>
  let q := skip s
  .ok ((scan q).1, ⟨q, (scan q).2⟩) (skip (scan q).2)

def peek (toks : List Char) : Parser Bool := fun s =>
  let s := skip s
  .ok (s.head?.any toks.contains) s

/-- The `switch` of `parseredirs`. -/
def redircmd (cmd : Cmd) (tok : Char) (file : Word) : Cmd :=
  if tok = '<' then .redir cmd file O_RDONLY 0
  else if tok = '>' then .redir cmd file (O_WRONLY ||| O_CREATE ||| O_TRUNC) 1
  else if tok = '+' then .redir cmd file (O_WRONLY ||| O_CREATE) 1
  else cmd

def parseredirs : ℕ → Cmd → Parser Cmd
  | 0, _ => throw .fuel
  | n+1, cmd => do
    if ← peek ['<', '>'] then
      let (tok, _) ← gettoken
      let (a, file) ← gettoken
      if a ≠ 'a' then throw (.panic "missing file for redirection")
      else parseredirs n (redircmd cmd tok file)
    else pure cmd

/-- `cmd->argv[argc] = q; cmd->eargv[argc] = eq`, where `cmd` is the command inside all
redirections. -/
def Cmd.addArg (w : Word) : Cmd → Cmd
  | .exec argv => .exec (argv ++ [w])
  | .redir cmd file mode fd => .redir (cmd.addArg w) file mode fd
  | cmd => cmd

/-- One test of the loop of `parseexec`, and its body up to the next `parseredirs`. -/
def parsearg (argc : ℕ) (ret : Cmd) (next : Cmd → Parser Cmd) : Parser Cmd := do
  if ← peek ['|', ')', '&', ';'] then pure ret
  else
    let (tok, w) ← gettoken
    if tok = '\x00' then pure ret
    else if tok ≠ 'a' then throw (.panic "syntax")
    else if MAXARGS ≤ argc+1 then throw (.panic "too many args")
    else next (ret.addArg w)

/-- `parseexec` from its first `parseredirs` on. -/
def parseargs : ℕ → ℕ → Cmd → Parser Cmd
  | 0, _, _ => throw .fuel
  | n+1, argc, ret => do
    let ret ← parseredirs (n+1) ret
    parsearg argc ret (parseargs n (argc+1))

section
variable (line : Parser Cmd)

def parseblock (n : ℕ) : Parser Cmd := do
  if ← peek ['('] then
    let _ ← gettoken
    let cmd ← line
    if ← peek [')'] then
      let _ ← gettoken
      parseredirs n cmd
    else throw (.panic "syntax - missing )")
  else throw (.panic "parseblock")

def parseexec (n : ℕ) : Parser Cmd := do
  if ← peek ['('] then parseblock line n else parseargs n 0 (.exec [])

def parsepipe : ℕ → Parser Cmd
  | 0 => throw .fuel
  | n+1 => do
    let cmd ← parseexec line (n+1)
    if ← peek ['|'] then
      let _ ← gettoken
      let right ← parsepipe n
      pure (.pipe cmd right)
    else pure cmd

end

/-- The loop of `parseline`. -/
def parsebacks : ℕ → Cmd → Parser Cmd
  | 0, _ => throw .fuel
  | n+1, cmd => do
    if ← peek ['&'] then
      let _ ← gettoken
      parsebacks n (.back cmd)
    else pure cmd

def parseline : ℕ → Parser Cmd
  | 0 => throw .fuel
  | n+1 => do
    let cmd ← parsepipe (parseline n) (n+1)
    let cmd ← parsebacks (n+1) cmd
    if ← peek [';'] then
      let _ ← gettoken
      let right ← parseline n
      pure (.list cmd right)
    else pure cmd

/-- `parsecmd` before `nulterminate`. -/
def parsecmd (s : Ptr) : Except Stop Cmd :=
  match parseline (s.length+1) s with
  | .error e _ => .error e
  | .ok cmd s =>
    -- `peek(&s, es, "")` skips what `s != es` does not mean.
    if skip s ≠ [] then .error (.panic "syntax") else .ok cmd

/-! The grammar. -/

inductive Tok where
  | lt | gt | append | bar | amp | semi | lpar | rpar
  | word (w : Word)
  deriving DecidableEq

def symbol (c : Char) : Option Tok :=
  if c = '<' then some .lt else if c = '>' then some .gt else if c = '|' then some .bar
  else if c = '&' then some .amp else if c = ';' then some .semi else if c = '(' then some .lpar
  else if c = ')' then some .rpar else none

/-- The input cut at whitespace and symbols. -/
def lex (s : Ptr) : List Tok :=
  match s with
  | [] => []
  | c :: s =>
    if whitespace.contains c then lex s
    else if c = '>' ∧ s.head? = some '>' then .append :: lex s.tail
    else
      match symbol c with
      | some t => t :: lex s
      | none => .word ⟨c :: s, skipWord s⟩ :: lex (skipWord s)
termination_by s.length
decreasing_by
  all_goals simp only [List.length_cons, List.length_tail, skipWord]
  · omega
  · omega
  · omega
  · exact Nat.lt_succ_of_le (List.dropWhile_sublist _).length_le

/-- `<`, `>` and `>>`. -/
inductive RedirOp where
  | input | output | append
  deriving DecidableEq

/-- A redirection with its file. -/
abbrev Redir := RedirOp × Word

def RedirOp.tok : RedirOp → Tok
  | .input => .lt
  | .output => .gt
  | .append => .append

def Redir.wrap (cmd : Cmd) (r : Redir) : Cmd :=
  match r.1 with
  | .input => .redir cmd r.2 O_RDONLY 0
  | .output => .redir cmd r.2 (O_WRONLY ||| O_CREATE ||| O_TRUNC) 1
  | .append => .redir cmd r.2 (O_WRONLY ||| O_CREATE) 1

mutual
/-- `line ::= pipe '&'* (';' line)?`. -/
inductive Line where
  | last (p : Pipe) (k : ℕ)
  | seq (p : Pipe) (k : ℕ) (l : Line)

/-- `pipe ::= exec ('|' pipe)?`. -/
inductive Pipe where
  | last (e : Exec)
  | bar (e : Exec) (p : Pipe)

/-- `exec ::= '(' line ')' redir* | redir* (word redir*)*`. -/
inductive Exec where
  | block (l : Line) (rs : List Redir)
  | simple (rs : List Redir) (args : List (Word × List Redir))
end

def redirTokens (rs : List Redir) : List Tok := rs.flatMap fun r => [r.1.tok, .word r.2]

mutual
def Line.tokens : Line → List Tok
  | .last p k => p.tokens ++ List.replicate k .amp
  | .seq p k l => p.tokens ++ (List.replicate k .amp ++ .semi :: l.tokens)

def Pipe.tokens : Pipe → List Tok
  | .last e => e.tokens
  | .bar e p => e.tokens ++ .bar :: p.tokens

def Exec.tokens : Exec → List Tok
  | .block l rs => .lpar :: (l.tokens ++ .rpar :: redirTokens rs)
  | .simple rs args => redirTokens rs ++ args.flatMap fun a => .word a.1 :: redirTokens a.2
end

mutual
def Line.tree : Line → Cmd
  | .last p k => Cmd.back^[k] p.tree
  | .seq p k l => .list (Cmd.back^[k] p.tree) l.tree

def Pipe.tree : Pipe → Cmd
  | .last e => e.tree
  | .bar e p => .pipe e.tree p.tree

/-- The redirections are around the command in the order of the text, the first one inside. -/
def Exec.tree : Exec → Cmd
  | .block l rs => rs.foldl Redir.wrap l.tree
  | .simple rs args => (rs ++ args.flatMap Prod.snd).foldl Redir.wrap (.exec (args.map Prod.fst))
end

mutual
/-- No simple command has more than `MAXARGS`-1 words. -/
def Line.Fits : Line → Prop
  | .last p _ => p.Fits
  | .seq p _ l => p.Fits ∧ l.Fits

def Pipe.Fits : Pipe → Prop
  | .last e => e.Fits
  | .bar e p => e.Fits ∧ p.Fits

def Exec.Fits : Exec → Prop
  | .block l _ => l.Fits
  | .simple _ args => args.length < MAXARGS
end

/-! Tokens and pointers. -/

/-- What `gettoken` returns for a token. -/
def Tok.code : Tok → Char
  | .lt => '<' | .gt => '>' | .append => '+' | .bar => '|' | .amp => '&' | .semi => ';'
  | .lpar => '(' | .rpar => ')' | .word _ => 'a'

/-- What `peek` sees of a token. -/
def Tok.first : Tok → Char
  | .append => '>'
  | t => t.code

theorem symbol_code {c : Char} {t : Tok} (h : symbol c = some t) :
    t.code = c ∧ t.first = c ∧ symbols.contains c = true ∧ ∀ w, t ≠ .word w := by
  unfold symbol at h
  split_ifs at h with h1 h2 h3 h4 h5 h6 h7 <;> cases h <;> subst c <;> exact ⟨rfl, rfl, rfl, by simp⟩

theorem symbol_none {c : Char} (h : symbol c = none) : symbols.contains c = false ∧ c ≠ '>' := by
  unfold symbol at h
  split_ifs at h
  simp_all [symbols]

theorem lex_skip (s : Ptr) : lex (skip s) = lex s := by
  induction s with
  | nil => rfl
  | cons c s ih =>
    by_cases hc : whitespace.contains c = true
    · rw [skip, List.dropWhile_cons_of_pos hc, lex, if_pos hc]
      exact ih
    · rw [skip, List.dropWhile_cons_of_neg hc]

theorem skip_length_le (s : Ptr) : (skip s).length ≤ s.length := (List.dropWhile_sublist _).length_le

/-- A token starts where whitespace ends, and `scan` finds it. -/
theorem lex_scan {c : Char} {s : Ptr} (hc : whitespace.contains c = false) :
    ∃ t, lex (c :: s) = t :: lex (scan (c :: s)).2 ∧ (scan (c :: s)).1 = t.code ∧
      (∀ w, t = .word w → w = ⟨c :: s, (scan (c :: s)).2⟩) ∧ (scan (c :: s)).2.length ≤ s.length ∧
      ∀ toks ⊆ symbols, toks.contains c = toks.contains t.first := by
  rw [lex, if_neg (by rw [hc]; simp), scan]
  by_cases happ : c = '>' ∧ s.head? = some '>'
  · rw [if_pos happ, if_pos happ.2, happ.1]
    exact ⟨.append, rfl, rfl, by simp, by simp, fun _ _ => rfl⟩
  rw [if_neg happ]
  cases hsym : symbol c with
  | some t =>
    obtain ⟨hcode, hfirst, hin, hword⟩ := symbol_code hsym
    have hscan : (if c = '>' then if s.head? = some '>' then ('+', s.tail) else ('>', s)
        else if symbols.contains c then (c, s) else ('a', skipWord (c :: s))) = (c, s) := by
      by_cases hgt : c = '>'
      · rw [if_pos hgt, if_neg fun h => happ ⟨hgt, h⟩, hgt]
      · rw [if_neg hgt, if_pos hin]
    rw [hscan]
    exact ⟨t, rfl, hcode.symm, fun w hw => absurd hw (hword w), Nat.le_refl _, fun _ _ => by rw [hfirst]⟩
  | none =>
    obtain ⟨hout, hgt⟩ := symbol_none hsym
    have hskip : skipWord (c :: s) = skipWord s :=
      List.dropWhile_cons_of_pos (by rw [hc, hout]; rfl)
    rw [if_neg hgt, if_neg (by rw [hout]; simp), hskip]
    refine ⟨.word ⟨c :: s, skipWord s⟩, rfl, rfl, fun w hw => (Tok.word.inj hw).symm,
      (List.dropWhile_sublist _).length_le, fun toks htoks => ?_⟩
    have ha : toks.contains 'a' = false := by
      rw [List.contains_eq_mem, decide_eq_false_iff_not]
      exact fun h => absurd (htoks h) (by decide)
    have hc' : toks.contains c = false := by
      rw [List.contains_eq_mem, decide_eq_false_iff_not] at hout ⊢
      exact fun h => hout (htoks h)
    rw [hc', ← ha]
    rfl

section
variable {s s' : Ptr} {t : Tok} {ts us : List Tok} {α β : Type}

theorem bind_ok {x : Parser α} {a : α} (h : x s = .ok a s') (f : α → Parser β) :
    (x >>= f) s = f a s' := by
  change EStateM.bind x f s = _
  rw [EStateM.bind, h]

theorem skip_cons (h : lex s = t :: ts) : ∃ c r, skip s = c :: r ∧ whitespace.contains c = false := by
  have hlex := lex_skip s
  have hhead := List.head?_dropWhile_not whitespace.contains s
  rw [← skip] at hhead
  cases hs : skip s with
  | nil =>
    rw [hs, h, lex] at hlex
    cases hlex
  | cons c r =>
    rw [hs] at hhead
    exact ⟨c, r, rfl, hhead⟩

theorem skip_nil (h : lex s = []) : skip s = [] := by
  have hlex := lex_skip s
  have hhead := List.head?_dropWhile_not whitespace.contains s
  rw [← skip] at hhead
  cases hs : skip s with
  | nil => rfl
  | cons c r =>
    rw [hs] at hlex hhead
    obtain ⟨t, ht, -⟩ := lex_scan (s := r) hhead
    rw [ht, h] at hlex
    cases hlex

theorem gettoken_nil (h : lex s = []) : gettoken s = .ok ('\x00', ⟨[], []⟩) [] := by
  rw [gettoken, skip_nil h]
  rfl

theorem gettoken_cons (h : lex s = t :: ts) : ∃ w s', gettoken s = .ok (t.code, w) s' ∧
    lex s' = ts ∧ s'.length < s.length ∧ ∀ v, t = .word v → w = v := by
  obtain ⟨c, r, hs, hc⟩ := skip_cons h
  obtain ⟨t', hlex, hcode, hword, hlen, -⟩ := lex_scan (s := r) hc
  rw [← hs, lex_skip, h] at hlex
  obtain ⟨rfl, hts⟩ := List.cons.inj hlex
  have hskip := skip_length_le s
  have hend := skip_length_le (scan (skip s)).2
  rw [← hs] at hlen hword hcode
  rw [hs, List.length_cons] at hskip
  refine ⟨⟨skip s, (scan (skip s)).2⟩, skip (scan (skip s)).2, ?_, ?_, by omega,
    fun v hv => (hword v hv).symm⟩
  · rw [gettoken, hcode]
  · rw [lex_skip, hts]

theorem peek_ok {toks : List Char} (htoks : toks ⊆ symbols) :
    peek toks s = .ok ((lex s).head?.any fun t => toks.contains t.first) (skip s) := by
  rw [peek]
  congr 1
  cases h : lex s with
  | nil =>
    rw [skip_nil h]
    rfl
  | cons t ts =>
    obtain ⟨c, r, hs, hc⟩ := skip_cons h
    obtain ⟨t', hlex, -, -, -, hfirst⟩ := lex_scan (s := r) hc
    rw [← hs, lex_skip, h] at hlex
    obtain ⟨rfl, -⟩ := List.cons.inj hlex
    rw [hs]
    exact hfirst toks htoks

theorem first_inj {t t' : Tok} (ht : t ∈ [.bar, .amp, .semi, .lpar, .rpar])
    (h : t'.first = t.first) : t' = t := by
  simp only [List.mem_cons, List.not_mem_nil, or_false] at ht
  rcases ht with rfl | rfl | rfl | rfl | rfl <;> cases t' <;> first | rfl | simp [Tok.first, Tok.code] at h

/-- `if(peek(ps, es, "…")) { gettoken(ps, es, 0, 0); … }`. -/
theorem accept (t : Tok) (ht : t ∈ [.bar, .amp, .semi, .lpar, .rpar]) (s : Ptr) (x y : Parser α) :
    (∃ s', lex s = t :: lex s' ∧ s'.length < s.length ∧
      (peek [t.first] >>= fun b => if b = true then gettoken >>= fun _ => x else y) s = x s') ∨
    ((lex s).head? ≠ some t ∧ ∃ s', lex s' = lex s ∧ s'.length ≤ s.length ∧
      (peek [t.first] >>= fun b => if b = true then gettoken >>= fun _ => x else y) s = y s') := by
  have hsub : [t.first] ⊆ symbols := by
    simp only [List.mem_cons, List.not_mem_nil, or_false] at ht
    rcases ht with rfl | rfl | rfl | rfl | rfl <;> decide
  rw [bind_ok (peek_ok hsub)]
  by_cases h : (lex s).head? = some t
  · obtain ⟨ts, hts⟩ := List.head?_eq_some_iff.mp h
    have hskip : lex (skip s) = t :: ts := by rw [lex_skip, hts]
    obtain ⟨w, s', hget, hs', hlt, -⟩ := gettoken_cons hskip
    have hle := skip_length_le s
    refine .inl ⟨s', by rw [hts, hs'], by omega, ?_⟩
    rw [if_pos (by rw [h]; simp), bind_ok hget]
  · refine .inr ⟨h, skip s, lex_skip s, skip_length_le s, ?_⟩
    rw [if_neg]
    intro hany
    obtain ⟨t', ht', hfirst⟩ := (Option.any_eq_true _ _).mp hany
    have hfirst : t'.first = t.first := by simpa using hfirst
    exact h (ht'.trans (congrArg some (first_inj ht hfirst)))

/-- A round of `parseredirs`. -/
theorem redir_cases (n : ℕ) (c : Cmd) (s : Ptr) :
    (∃ op w s', lex s = RedirOp.tok op :: .word w :: lex s' ∧ s'.length < s.length ∧
      parseredirs (n+1) c s = parseredirs n (Redir.wrap c (op, w)) s') ∨
    ((∀ op, (lex s).head? ≠ some (RedirOp.tok op)) ∧ ∃ s', lex s' = lex s ∧
      s'.length ≤ s.length ∧ parseredirs (n+1) c s = .ok c s') ∨
    (∃ op, (lex s).head? = some (RedirOp.tok op)) ∧ (∀ w, (lex s).tail.head? ≠ some (.word w)) ∧
      ∃ msg s', parseredirs (n+1) c s = .error (.panic msg) s' := by
  rw [parseredirs, bind_ok (peek_ok (by decide))]
  have hle := skip_length_le s
  by_cases hop : ∃ op, (lex s).head? = some (RedirOp.tok op)
  · obtain ⟨op, hop⟩ := hop
    obtain ⟨ts, hts⟩ := List.head?_eq_some_iff.mp hop
    obtain ⟨w, s1, hget, hs1, hlt, -⟩ := gettoken_cons (s := skip s) (by rw [lex_skip, hts])
    rw [if_pos (by rw [hop]; cases op <;> rfl), bind_ok hget, hts, List.tail_cons, ← hs1]
    cases hlex : lex s1 with
    | nil =>
      refine .inr (.inr ⟨⟨op, rfl⟩, by simp, "missing file for redirection", [], ?_⟩)
      dsimp only
      rw [bind_ok (gettoken_nil hlex)]
      rfl
    | cons t ts' =>
      obtain ⟨v, s2, hget2, hs2, hlt2, hv⟩ := gettoken_cons hlex
      cases t with
      | word w' =>
        refine .inl ⟨op, w', s2, by rw [hs2], by omega, ?_⟩
        dsimp only
        rw [bind_ok hget2, hv w' rfl]
        cases op <;> rfl
      | _ =>
        refine .inr (.inr ⟨⟨op, rfl⟩, by simp, "missing file for redirection", s2, ?_⟩)
        dsimp only
        rw [bind_ok hget2]
        rfl
  · refine .inr (.inl ⟨fun op h => hop ⟨op, h⟩, skip s, lex_skip s, hle, ?_⟩)
    rw [if_neg]
    · rfl
    intro hany
    obtain ⟨t, ht, hfirst⟩ := (Option.any_eq_true _ _).mp hany
    cases t with
    | lt => exact hop ⟨.input, ht⟩
    | gt => exact hop ⟨.output, ht⟩
    | append => exact hop ⟨.append, ht⟩
    | _ => cases hfirst

def StartsIn (first ts : List Tok) : Prop := ∀ t ∈ ts.head?, t ∈ first

/-- The end of a command of a pipeline. -/
abbrev Ends : List Tok → Prop := StartsIn [.bar, .rpar, .amp, .semi]

/-- A round of the loop of `parseexec`. -/
theorem arg_cases (argc : ℕ) (ret : Cmd) (next : Cmd → Parser Cmd) (s : Ptr) :
    (Ends (lex s) ∧ ∃ s', lex s' = lex s ∧ s'.length ≤ s.length ∧
      parsearg argc ret next s = .ok ret s') ∨
    (∃ w s', lex s = .word w :: lex s' ∧ s'.length < s.length ∧ argc+1 < MAXARGS ∧
      parsearg argc ret next s = next (ret.addArg w) s') ∨
    ¬Ends (lex s) ∧ (∀ w, (lex s).head? = some (.word w) → MAXARGS ≤ argc+1) ∧
      ∃ msg s', parsearg argc ret next s = .error (.panic msg) s' := by
  rw [parsearg, bind_ok (peek_ok (by decide))]
  have hle := skip_length_le s
  have hskip := lex_skip s
  cases hlex : lex s with
  | nil =>
    refine .inl ⟨by simp [StartsIn], [], by rw [lex], Nat.zero_le _, ?_⟩
    rw [if_neg (by simp), bind_ok (gettoken_nil (hskip.trans hlex))]
    rfl
  | cons t ts =>
    obtain ⟨v, s', hget, hs', hlt, hv⟩ := gettoken_cons (hskip.trans hlex)
    by_cases hend : t ∈ [Tok.bar, .rpar, .amp, .semi]
    · refine .inl ⟨by simpa [StartsIn] using hend, skip s, hskip.trans hlex, hle, ?_⟩
      rw [if_pos]
      · rfl
      simp only [List.mem_cons, List.not_mem_nil, or_false] at hend
      rcases hend with rfl | rfl | rfl | rfl <;> rfl
    right
    have hends : ¬Ends (t :: ts) := fun h => hend (h t rfl)
    have hpeek : ((t :: ts).head?.any fun t => ['|', ')', '&', ';'].contains t.first) = false := by
      cases t <;> first | rfl | simp at hend
    rw [hpeek, if_neg (by simp), bind_ok hget]
    cases t with
    | word w =>
      by_cases hargc : MAXARGS ≤ argc+1
      · refine .inr ⟨hends, fun _ _ => hargc, "too many args", s', ?_⟩
        dsimp only [Tok.code]
        rw [if_neg (by decide), if_pos hargc]
        rfl
      · refine .inl ⟨w, s', by rw [hs'], by omega, by omega, ?_⟩
        dsimp only [Tok.code]
        rw [if_neg (by decide), if_neg (by decide), if_neg hargc, hv w rfl]
    | _ =>
      refine .inr ⟨hends, by simp, "syntax", s', ?_⟩
      dsimp only [Tok.code]
      rfl

end

/-! What the parser accepts is derived by the grammar. -/

section
variable {P P' : List Tok → Cmd → Prop} {x y : Parser Cmd} {f : Cmd → Parser Cmd} {s : Ptr} {c d : Cmd}
  {us vs : List Tok}

/-- The parser function comes to an end, and what it returns is the tree of a phrase that it has
consumed. -/
def Parses (P : List Tok → Cmd → Prop) (x : Parser Cmd) (s : Ptr) : Prop :=
  post x s (fun c s' => s'.length ≤ s.length ∧ ∃ ts, lex s = ts ++ lex s' ∧ P ts c)
    fun e _ => e ≠ .fuel

namespace Parses

theorem ret (hP : P [] c) : Parses P (pure c) s := ⟨Nat.le_refl _, [], rfl, hP⟩

theorem error {msg : String} (h : ∃ s', x s = .error (.panic msg) s') : Parses P x s := by
  obtain ⟨s', h⟩ := h
  unfold Parses post
  rw [h]
  simp

theorem step (ts0 : List Tok) {s' : Ptr} (h : x s = y s') (hlex : lex s = ts0 ++ lex s')
    (hle : s'.length ≤ s.length) (hy : Parses (fun ts => P (ts0 ++ ts)) y s') : Parses P x s := by
  have hx : post x s = post y s' := by
    funext Q E
    unfold post
    rw [h]
  unfold Parses
  rw [hx]
  refine post_mono hy ?_ fun _ _ he => he
  rintro c s'' ⟨hle', ts, hts, hc⟩
  exact ⟨by omega, ts0 ++ ts, by rw [hlex, hts, List.append_assoc], hc⟩

theorem bind (hx : Parses P' x s)
    (hf : ∀ c ts s', s'.length ≤ s.length → P' ts c → Parses (fun us => P (ts ++ us)) (f c) s') :
    Parses P (x >>= f) s := by
  refine post_bind_of hx ?_
  rintro c s' ⟨hle, ts0, hts0, hc⟩
  refine post_mono (hf c ts0 s' hle hc) ?_ fun _ _ he => he
  rintro d s'' ⟨hle', ts, hts, hd⟩
  exact ⟨by omega, ts0 ++ ts, by rw [hts0, hts, List.append_assoc], hd⟩

theorem accept (t : Tok) (ht : t ∈ [.bar, .amp, .semi, .lpar, .rpar])
    (hx : ∀ s', s'.length < s.length → Parses (fun ts => P (t :: ts)) x s')
    (hy : ∀ s', s'.length ≤ s.length → Parses P y s') :
    Parses P (peek [t.first] >>= fun b => if b = true then gettoken >>= fun _ => x else y) s := by
  rcases Shell.accept t ht s x y with ⟨s', hs, hlt, he⟩ | ⟨-, s', hs, hle, he⟩
  · exact step [t] he hs (Nat.le_of_lt hlt) (hx s' hlt)
  · exact step [] he hs.symm hle (hy s' hle)

end Parses

theorem parsebacks_sound (n : ℕ) (c : Cmd) (s : Ptr) (h : s.length < n) :
    Parses (fun ts d => ∃ k, ts = List.replicate k .amp ∧ d = Cmd.back^[k] c) (parsebacks n c) s := by
  induction n generalizing c s with
  | zero => omega
  | succ n ih =>
    refine .accept .amp (by simp) (fun s' hlt => ?_) fun s' _ => .ret ⟨0, rfl, rfl⟩
    refine post_mono (ih (.back c) s' (by omega)) ?_ fun _ _ he => he
    rintro d s'' ⟨hle, ts, hts, k, rfl, rfl⟩
    exact ⟨hle, _, hts, k+1, rfl, rfl⟩

theorem parseredirs_sound (n : ℕ) (c : Cmd) (s : Ptr) (h : s.length < n) :
    Parses (fun ts d => ∃ rs, ts = redirTokens rs ∧ d = rs.foldl Redir.wrap c) (parseredirs n c) s := by
  induction n generalizing c s with
  | zero => omega
  | succ n ih =>
    rcases redir_cases n c s with ⟨op, w, s', hs, hlt, hx⟩ | ⟨-, s', hs, hle, hx⟩ | ⟨-, -, msg, hx⟩
    · refine .step [op.tok, .word w] hx hs (by omega) (post_mono (ih _ s' (by omega)) ?_ fun _ _ he => he)
      rintro d s'' ⟨hle, ts, hts, rs, rfl, rfl⟩
      exact ⟨hle, _, hts, (op, w) :: rs, rfl, rfl⟩
    · exact .step (y := pure c) [] hx hs.symm hle (.ret ⟨[], rfl, rfl⟩)
    · exact .error hx

/-- A word with the redirections after it. -/
def Cmd.addArgs (c : Cmd) (a : Word × List Redir) : Cmd := a.2.foldl Redir.wrap (c.addArg a.1)

def argTokens (args : List (Word × List Redir)) : List Tok :=
  args.flatMap fun a => .word a.1 :: redirTokens a.2

theorem parseargs_sound (n argc : ℕ) (ret : Cmd) (s : Ptr) (h : s.length < n) (hargc : argc < MAXARGS) :
    Parses (fun ts d => ∃ rs args, ts = redirTokens rs ++ argTokens args ∧
      argc+args.length < MAXARGS ∧ d = args.foldl Cmd.addArgs (rs.foldl Redir.wrap ret))
      (parseargs n argc ret) s := by
  induction n generalizing argc ret s with
  | zero => omega
  | succ n ih =>
    refine .bind (parseredirs_sound (n+1) ret s h) ?_
    rintro _ _ s1 hle ⟨rs, rfl, rfl⟩
    rcases arg_cases argc (rs.foldl Redir.wrap ret) (parseargs n (argc+1)) s1 with
      ⟨-, s', hs, hle', hx⟩ | ⟨w, s', hs, hlt, hmax, hx⟩ | ⟨-, -, msg, hx⟩
    · exact .step (y := pure _) [] hx hs.symm hle' (.ret ⟨rs, [], rfl, hargc, rfl⟩)
    · refine .step [.word w] hx hs (by omega)
        (post_mono (ih (argc+1) _ s' (by omega) hmax) ?_ fun _ _ he => he)
      rintro d s'' ⟨hle'', _, hts, rs', args, rfl, hlen, rfl⟩
      refine ⟨hle'', _, hts, rs, (w, rs') :: args, ?_, by rw [List.length_cons]; omega, rfl⟩
      simp [argTokens]
    · exact .error hx

theorem addArg_foldl (rs : List Redir) (c : Cmd) (w : Word) :
    (rs.foldl Redir.wrap c).addArg w = rs.foldl Redir.wrap (c.addArg w) := by
  induction rs generalizing c with
  | nil => rfl
  | cons r rs ih =>
    have hr : (Redir.wrap c r).addArg w = Redir.wrap (c.addArg w) r := by
      unfold Redir.wrap
      cases r.1 <;> rfl
    rw [List.foldl_cons, List.foldl_cons, ih, hr]

theorem addArgs_foldl (args : List (Word × List Redir)) (rs : List Redir) (ws : List Word) :
    args.foldl Cmd.addArgs (rs.foldl Redir.wrap (.exec ws)) =
      (rs ++ args.flatMap Prod.snd).foldl Redir.wrap (.exec (ws ++ args.map Prod.fst)) := by
  induction args generalizing rs ws with
  | nil => simp
  | cons a args ih =>
    have ha : Cmd.addArgs (rs.foldl Redir.wrap (.exec ws)) a =
        (rs ++ a.2).foldl Redir.wrap (.exec (ws ++ [a.1])) := by
      rw [Cmd.addArgs, addArg_foldl, List.foldl_append]
      rfl
    rw [List.foldl_cons, ha, ih]
    simp

section
variable {line : Parser Cmd} {m : ℕ} (hline : ∀ s, s.length < m →
  Parses (fun ts c => ∃ l : Line, l.Fits ∧ ts = l.tokens ∧ c = l.tree) line s)
include hline

theorem parseexec_sound (n : ℕ) (s : Ptr) (h : s.length < n) (hm : s.length ≤ m) :
    Parses (fun ts c => ∃ e : Exec, e.Fits ∧ ts = e.tokens ∧ c = e.tree) (parseexec line n) s := by
  have hle := skip_length_le s
  refine .step [] (bind_ok (peek_ok (by decide)) _) (lex_skip s).symm hle ?_
  split
  · refine .accept .lpar (by simp) (fun s1 hlt => .bind (hline s1 (by omega)) ?_)
      fun s1 _ => .error ⟨s1, rfl⟩
    rintro _ _ s2 hle2 ⟨l, hl, rfl, rfl⟩
    refine .accept .rpar (by simp) (fun s3 hlt3 => ?_) fun s3 _ => .error ⟨s3, rfl⟩
    refine post_mono (parseredirs_sound n _ s3 (by omega)) ?_ fun _ _ he => he
    rintro _ s4 ⟨hle4, _, hts, rs, rfl, rfl⟩
    exact ⟨hle4, _, hts, .block l rs, hl, rfl, rfl⟩
  · refine post_mono (parseargs_sound n 0 _ _ (by omega) (by decide)) ?_ fun _ _ he => he
    rintro _ s4 ⟨hle4, _, hts, rs, args, rfl, hlen, rfl⟩
    exact ⟨hle4, _, hts, .simple rs args, by simpa [Exec.Fits] using hlen, rfl,
      addArgs_foldl args rs []⟩

theorem parsepipe_sound (n : ℕ) (s : Ptr) (h : s.length < n) (hm : s.length ≤ m) :
    Parses (fun ts c => ∃ p : Pipe, p.Fits ∧ ts = p.tokens ∧ c = p.tree) (parsepipe line n) s := by
  induction n generalizing s with
  | zero => omega
  | succ n ih =>
    refine .bind (parseexec_sound hline (n+1) s h hm) ?_
    rintro _ _ s1 hle1 ⟨e, he, rfl, rfl⟩
    refine .accept .bar (by simp) (fun s2 hlt2 => .bind (ih s2 (by omega) (by omega)) ?_)
      fun s2 _ => .ret ⟨.last e, he, by simp [Pipe.tokens], rfl⟩
    rintro _ _ s3 - ⟨p, hp, rfl, rfl⟩
    exact .ret ⟨.bar e p, ⟨he, hp⟩, by simp [Pipe.tokens], rfl⟩

end

theorem parseline_sound (n : ℕ) (s : Ptr) (h : s.length < n) :
    Parses (fun ts c => ∃ l : Line, l.Fits ∧ ts = l.tokens ∧ c = l.tree) (parseline n) s := by
  induction n generalizing s with
  | zero => omega
  | succ n ih =>
    refine .bind (parsepipe_sound ih (n+1) s h (by omega)) ?_
    rintro _ _ s1 hle1 ⟨p, hp, rfl, rfl⟩
    refine .bind (parsebacks_sound (n+1) p.tree s1 (by omega)) ?_
    rintro _ _ s2 hle2 ⟨k, rfl, rfl⟩
    refine .accept .semi (by simp) (fun s3 hlt3 => .bind (ih s3 (by omega)) ?_)
      fun s3 _ => .ret ⟨.last p k, hp, by simp [Line.tokens], rfl⟩
    rintro _ _ s4 - ⟨l, hl, rfl, rfl⟩
    exact .ret ⟨.seq p k l, ⟨hp, hl⟩, by simp [Line.tokens], rfl⟩

/-! What the grammar derives is accepted. -/

/-- The parser function returns `c` when all tokens but `us` have been consumed. -/
def Returns (x : Parser Cmd) (s : Ptr) (c : Cmd) (us : List Tok) : Prop :=
  ∃ s', x s = .ok c s' ∧ lex s' = us ∧ s'.length ≤ s.length

namespace Returns

theorem ret (h : lex s = us) : Returns (pure c) s c us := ⟨s, rfl, h, Nat.le_refl _⟩

theorem step {s' : Ptr} (h : x s = y s') (hle : s'.length ≤ s.length) (hy : Returns y s' c us) :
    Returns x s c us := by
  obtain ⟨s'', hs'', hus, hle'⟩ := hy
  exact ⟨s'', h.trans hs'', hus, Nat.le_trans hle' hle⟩

theorem bind (hx : Returns x s c us)
    (hf : ∀ s', lex s' = us → s'.length ≤ s.length → Returns (f c) s' d vs) :
    Returns (x >>= f) s d vs := by
  obtain ⟨s', hs', hus, hle⟩ := hx
  exact (hf s' hus hle).step (bind_ok hs' f) hle

theorem accept (t : Tok) (ht : t ∈ [.bar, .amp, .semi, .lpar, .rpar]) (hlex : lex s = t :: us)
    (hx : ∀ s', lex s' = us → s'.length < s.length → Returns x s' c vs) :
    Returns (peek [t.first] >>= fun b => if b = true then gettoken >>= fun _ => x else y) s c vs := by
  rcases Shell.accept t ht s x y with ⟨s', hs, hlt, he⟩ | ⟨hno, -⟩
  · rw [hlex] at hs
    exact (hx s' (List.cons.inj hs).2.symm hlt).step he (Nat.le_of_lt hlt)
  · exact absurd (by rw [hlex]; rfl) hno

theorem pass (t : Tok) (ht : t ∈ [.bar, .amp, .semi, .lpar, .rpar]) (hlex : (lex s).head? ≠ some t)
    (hy : ∀ s', lex s' = lex s → Returns y s' c vs) :
    Returns (peek [t.first] >>= fun b => if b = true then gettoken >>= fun _ => x else y) s c vs := by
  rcases Shell.accept t ht s x y with ⟨s', hs, -⟩ | ⟨-, s', hs, hle, he⟩
  · exact absurd (by rw [hs]; rfl) hlex
  · exact (hy s' hs).step he hle

end Returns

theorem tok_inj {op op' : RedirOp} (h : op.tok = op'.tok) : op = op' := by
  cases op <;> cases op' <;> first | rfl | cases h

theorem parseredirs_complete {n : ℕ} (rs : List Redir) (h : s.length < n)
    (hlex : lex s = redirTokens rs ++ us) (hus : ∀ op, us.head? ≠ some (RedirOp.tok op)) :
    Returns (parseredirs n c) s (rs.foldl Redir.wrap c) us := by
  induction n generalizing c s rs with
  | zero => omega
  | succ n ih =>
    cases rs with
    | nil =>
      rw [← show lex s = us from hlex] at hus ⊢
      rcases redir_cases n c s with ⟨op, w, s', hs, -⟩ | ⟨-, s', hs, hle, hx⟩ | ⟨⟨op, hop⟩, -⟩
      · exact absurd (by rw [hs]; rfl) (hus op)
      · exact ⟨s', hx, hs, hle⟩
      · exact absurd hop (hus op)
    | cons r rs =>
      rcases redir_cases n c s with ⟨op, w, s', hs, hlt, hx⟩ | ⟨hno, -⟩ | ⟨-, hno, -⟩
      · rw [hlex] at hs
        obtain ⟨hop, hs⟩ := List.cons.inj hs
        obtain ⟨hw, hs⟩ := List.cons.inj hs
        rw [← tok_inj hop, ← Tok.word.inj hw] at hx
        exact (ih rs (by omega) hs.symm).step hx (by omega)
      · exact absurd (by rw [hlex]; rfl) (hno r.1)
      · exact absurd (by rw [hlex]; rfl) (hno r.2)

theorem StartsIn.head_ne {t : Tok} {l : List Tok} (h : StartsIn l us) (ht : t ∉ l) :
    us.head? ≠ some t :=
  fun he => ht (h t he)

theorem StartsIn.mono {l l' : List Tok} (h : StartsIn l us) (hl : l ⊆ l') : StartsIn l' us :=
  fun t ht => hl (h t ht)

theorem Ends.not_redir (h : Ends us) (op : RedirOp) : us.head? ≠ some op.tok :=
  h.head_ne (by cases op <;> simp [RedirOp.tok])

theorem parseargs_complete {n argc : ℕ} {rs : List Redir} (args : List (Word × List Redir))
    (h : s.length < n) (hlex : lex s = redirTokens rs ++ (argTokens args ++ us)) (hus : Ends us)
    (hlen : argc+args.length < MAXARGS) :
    Returns (parseargs n argc c) s (args.foldl Cmd.addArgs (rs.foldl Redir.wrap c)) us := by
  induction n generalizing argc c s rs args with
  | zero => omega
  | succ n ih =>
    cases args with
    | nil =>
      refine .bind (parseredirs_complete rs h hlex hus.not_redir) fun s1 hs1 hle => ?_
      rw [← show lex s1 = us from hs1] at hus ⊢
      rcases arg_cases argc (rs.foldl Redir.wrap c) (parseargs n (argc+1)) s1 with
        ⟨-, s', hs, hle', hx⟩ | ⟨w, s', hs, -⟩ | ⟨hno, -⟩
      · exact ⟨s', hx, hs, hle'⟩
      · exact absurd (by rw [hs]; rfl) (hus.head_ne (t := .word w) (by simp))
      · exact absurd hus hno
    | cons a args =>
      rw [List.length_cons] at hlen
      have hlex : lex s = redirTokens rs ++ (.word a.1 :: (redirTokens a.2 ++ (argTokens args ++ us))) := by
        rw [hlex]
        simp [argTokens]
      refine .bind (parseredirs_complete rs h hlex (by intro op; cases op <;> simp [RedirOp.tok]))
        fun s1 hs1 hle => ?_
      rcases arg_cases argc (rs.foldl Redir.wrap c) (parseargs n (argc+1)) s1 with
        ⟨hends, -⟩ | ⟨w, s', hs, hlt, -, hx⟩ | ⟨-, hno, -⟩
      · exact absurd (by rw [hs1]; rfl) (hends.head_ne (t := .word a.1) (by simp))
      · rw [hs1] at hs
        obtain ⟨hw, hs⟩ := List.cons.inj hs
        rw [← Tok.word.inj hw] at hx
        exact (ih args (by omega) hs.symm (by omega)).step hx (by omega)
      · have := hno a.1 (by rw [hs1]; rfl)
        omega

theorem parsebacks_complete {n : ℕ} (k : ℕ) (h : s.length < n)
    (hlex : lex s = List.replicate k .amp ++ us) (hus : us.head? ≠ some .amp) :
    Returns (parsebacks n c) s (Cmd.back^[k] c) us := by
  induction n generalizing c s k with
  | zero => omega
  | succ n ih =>
    cases k with
    | zero =>
      rw [← show lex s = us from hlex] at hus ⊢
      exact .pass .amp (by simp) hus fun s' hs => .ret hs
    | succ k => exact .accept .amp (by simp) hlex fun s' hs hlt => ih k (by omega) hs

theorem StartsIn.amps {k : ℕ} (h : StartsIn [.rpar, .semi] us) :
    StartsIn [.rpar, .amp, .semi] (List.replicate k .amp ++ us) := by
  cases k with
  | zero => exact h.mono (by simp)
  | succ k => simp [StartsIn, List.replicate_succ]

mutual
theorem Line.complete (l : Line) (hl : l.Fits) {n : ℕ} {s : Ptr} {us : List Tok} (h : s.length < n+1)
    (hlex : lex s = l.tokens ++ us) (hus : StartsIn [.rpar] us) :
    Returns (parseline (n+1)) s l.tree us := by
  cases l with
  | last p k =>
    have hstarts : StartsIn [.rpar, .semi] us := hus.mono (by simp)
    rw [Line.tokens, List.append_assoc] at hlex
    refine .bind (p.complete hl (by omega) (by omega) hlex hstarts.amps) fun s1 hs1 hle1 => ?_
    refine .bind (parsebacks_complete k (by omega) hs1 (hstarts.head_ne (by simp))) fun s2 hs2 _ => ?_
    rw [← hs2] at hus ⊢
    exact .pass .semi (by simp) (hus.head_ne (by simp)) fun s3 hs3 => .ret hs3
  | seq p k l =>
    have hstarts : StartsIn [.rpar, .semi] (.semi :: (l.tokens ++ us)) := by simp [StartsIn]
    rw [Line.tokens, List.append_assoc, List.append_assoc, List.cons_append] at hlex
    refine .bind (p.complete hl.1 (by omega) (by omega) hlex hstarts.amps) fun s1 hs1 hle1 => ?_
    refine .bind (parsebacks_complete k (by omega) hs1 (by simp)) fun s2 hs2 hle2 => ?_
    refine .accept .semi (by simp) hs2 fun s3 hs3 hlt3 => ?_
    obtain ⟨n, rfl⟩ : ∃ k, n = k+1 := ⟨n-1, by omega⟩
    exact .bind (l.complete hl.2 (by omega) hs3 hus) fun s4 hs4 _ => .ret hs4

theorem Pipe.complete (p : Pipe) (hp : p.Fits) {m n : ℕ} {s : Ptr} {us : List Tok}
    (h : s.length < n+1) (hm : s.length ≤ m) (hlex : lex s = p.tokens ++ us)
    (hus : StartsIn [.rpar, .amp, .semi] us) :
    Returns (parsepipe (parseline m) (n+1)) s p.tree us := by
  cases p with
  | last e =>
    refine .bind (e.complete hp h hm hlex (hus.mono (by simp))) fun s1 hs1 hle => ?_
    rw [← hs1] at hus ⊢
    exact .pass .bar (by simp) (hus.head_ne (by simp)) fun s2 hs2 => .ret hs2
  | bar e p =>
    rw [Pipe.tokens, List.append_assoc, List.cons_append] at hlex
    refine .bind (e.complete hp.1 h hm hlex (by simp [StartsIn])) fun s1 hs1 hle => ?_
    refine .accept .bar (by simp) hs1 fun s2 hs2 hlt2 => ?_
    obtain ⟨n, rfl⟩ : ∃ k, n = k+1 := ⟨n-1, by omega⟩
    exact .bind (p.complete hp.2 (by omega) (by omega) hs2 hus) fun s3 hs3 _ => .ret hs3

theorem Exec.complete (e : Exec) (he : e.Fits) {m n : ℕ} {s : Ptr} {us : List Tok}
    (h : s.length < n) (hm : s.length ≤ m) (hlex : lex s = e.tokens ++ us) (hus : Ends us) :
    Returns (parseexec (parseline m) n) s e.tree us := by
  have hskip := skip_length_le s
  refine .step (bind_ok (peek_ok (by decide)) _) hskip ?_
  cases e with
  | block l rs =>
    rw [Exec.tokens, List.cons_append, List.append_assoc, List.cons_append] at hlex
    rw [if_pos (by rw [hlex]; rfl)]
    refine .accept .lpar (by simp) ((lex_skip s).trans hlex) fun s1 hs1 hlt => ?_
    obtain ⟨m, rfl⟩ : ∃ k, m = k+1 := ⟨m-1, by omega⟩
    refine .bind (l.complete he (by omega) hs1 (by simp [StartsIn])) fun s2 hs2 hle2 => ?_
    refine .accept .rpar (by simp) hs2 fun s3 hs3 hlt3 => ?_
    exact parseredirs_complete rs (by omega) hs3 hus.not_redir
  | simple rs args =>
    rw [Exec.tokens, List.append_assoc] at hlex
    have hlpar : (lex s).head? ≠ some .lpar := by
      rw [hlex]
      cases rs with
      | nil =>
        cases args with
        | nil => exact hus.head_ne (by simp)
        | cons a args => simp [redirTokens]
      | cons r rs => rcases r with ⟨op, w⟩; cases op <;> simp [redirTokens, RedirOp.tok]
    rw [if_neg]
    · have hargs : Returns (parseargs n 0 (.exec [])) (skip s) _ us :=
        parseargs_complete args (by omega) ((lex_skip s).trans hlex) hus (by simpa [Exec.Fits] using he)
      rwa [addArgs_foldl args rs []] at hargs
    · intro hany
      obtain ⟨t, ht, hfirst⟩ := (Option.any_eq_true _ _).mp hany
      have hfirst : t.first = '(' := by simpa using hfirst
      rw [first_inj (t := .lpar) (by simp) hfirst] at ht
      exact hlpar ht
end

/-- `parsecmd` comes to an end on every input. It accepts what the grammar derives, with the tree
of the derivation, and panics on everything else. -/
theorem parsecmd_correct (s : Ptr) :
    (∀ c, parsecmd s = .ok c ↔ ∃ l : Line, l.Fits ∧ l.tokens = lex s ∧ l.tree = c) ∧
      parsecmd s ≠ .error .fuel := by
  have hsound := parseline_sound (s.length+1) s (by omega)
  have hcomplete (l : Line) (hl : l.Fits) (hlex : l.tokens = lex s) :
      Returns (parseline (s.length+1)) s l.tree [] :=
    l.complete hl (by omega) (by rw [hlex, List.append_nil]) (by simp [StartsIn])
  unfold parsecmd
  unfold Parses post at hsound
  cases hp : parseline (s.length+1) s with
  | error e s' =>
    rw [hp] at hsound
    refine ⟨fun c => ⟨fun h => (by cases h), ?_⟩, fun h => hsound (Except.error.inj h)⟩
    rintro ⟨l, hl, hlex, -⟩
    obtain ⟨s'', hok, -⟩ := hcomplete l hl hlex
    rw [hp] at hok
    cases hok
  | ok c s' =>
    rw [hp] at hsound
    obtain ⟨-, ts, hts, l, hl, rfl, rfl⟩ := hsound
    -- Nothing is left iff there is no token left.
    have hleft : skip s' = [] ↔ lex s' = [] := by
      refine ⟨fun h => ?_, skip_nil⟩
      rw [← lex_skip, h, lex]
    dsimp only
    refine ⟨fun c => ⟨fun h => ?_, ?_⟩, fun h => by split at h <;> cases h⟩
    · split at h
      · cases h
      · rename_i hskip
        refine ⟨l, hl, ?_, Except.ok.inj h⟩
        rw [hts, hleft.mp (not_not.mp hskip), List.append_nil]
    · rintro ⟨l', hl', hlex', rfl⟩
      obtain ⟨s'', hok, hnil, -⟩ := hcomplete l' hl' hlex'
      rw [hp] at hok
      obtain ⟨hc, hs⟩ := EStateM.Result.ok.inj hok
      rw [if_neg (not_not.mpr (hleft.mpr (hs ▸ hnil))), hc]

end

end Xv6.Shell
