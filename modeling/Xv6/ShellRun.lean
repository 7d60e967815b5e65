import Mathlib.Logic.Function.Basic
import Mathlib.Logic.Relation
import Xv6.ProcTable
import Xv6.ShellParser

/-! How the shell runs a command tree: `runcmd` of user/sh.c in processes that interleave. -/
namespace Xv6.Shell
open Function Relation

/-- The way from a node of the tree up to its root: `false` for `cmd` and `left`, `true` for
`right`. -/
abbrev Path := List Bool

/-- What a descriptor refers to: what the shell itself has there, a file that a redirection has
opened, or an end of the pipe that a node has made. -/
inductive Obj where
  | given (fd : ℕ)
  | file (name : List Char) (mode : ℕ)
  | read (node : Path)
  | write (node : Path)

abbrev Fds := ℕ → Option Obj

def fdalloc (fds : Fds) : Option ℕ := (List.range NOFILE).find? fun fd => (fds fd).isNone

/-- The string between `q` and `eq`. -/
def Word.text (w : Word) : List Char := w.q.take (w.q.length-w.eq.length)

/-- The descriptors of a process, and its `int p[2]`. -/
abbrev Files := Fds × ℕ × ℕ

/-- The system calls of `runcmd`. A descriptor is a constant, or `p[0]` or `p[1]`. -/
inductive Op where
  | close (fd : ℕ × ℕ → ℕ)
  | open (name : List Char) (mode : ℕ)
  | pipe
  | dup (fd : ℕ × ℕ → ℕ)

/-- What a process has still to do of `runcmd`. Each statement has the node it is part of. -/
inductive Code where
  | op (node : Path) (o : Op) (k : Code)
  | fork (node : Path) (child k : Code)
  | wait (node : Path) (k : Code)
  | exec (node : Path) (argv : List Word) (k : Code)
  | exit (node : Path)

/-- What both children of a `PIPE` node do before they go on below it. -/
def pipeEnd (π : Path) (n : ℕ) (fd : ℕ × ℕ → ℕ) (k : Code) : Code :=
  .op π (.close fun _ => n) <| .op π (.dup fd) <| .op π (.close Prod.fst) <| .op π (.close Prod.snd) k

def runcmd : Path → Cmd → Code
  | π, .exec argv => if argv = [] then .exit π else .exec π argv (.exit π)
  | π, .redir cmd file mode fd =>
    .op π (.close fun _ => fd) <| .op π (.open file.text mode) <| runcmd (false :: π) cmd
  | π, .list left right => .fork π (runcmd (false :: π) left) <| .wait π <| runcmd (true :: π) right
  | π, .pipe left right =>
    .op π .pipe <|
    .fork π (pipeEnd π 1 Prod.snd (runcmd (false :: π) left)) <|
    .fork π (pipeEnd π 0 Prod.fst (runcmd (true :: π) right)) <|
    .op π (.close Prod.fst) <| .op π (.close Prod.snd) <| .wait π <| .wait π <| .exit π
  | π, .back cmd => .fork π (runcmd (false :: π) cmd) <| .exit π

/-- What a system call does to the descriptors, unless it fails. -/
def Op.run (node : Path) : Op → Files → Option Files
  | .close fd, (fds, p) => some (update fds (fd p) none, p)
  | .open name mode, (fds, p) => do
    let fd ← fdalloc fds
    pure (update fds fd (some (.file name mode)), p)
  | .pipe, (fds, _) => do
    let fd0 ← fdalloc fds
    let fds := update fds fd0 (some (.read node))
    let fd1 ← fdalloc fds
    pure (update fds fd1 (some (.write node)), fd0, fd1)
  -- `runcmd` does not look at the result of `dup`
  | .dup fd, (fds, p) =>
    match fds (fd p), fdalloc fds with
    | some f, some fd' => some (update fds fd' (some f), p)
    | _, _ => some (fds, p)

/-- What a process runs: the shell, a program, or nothing any more. -/
inductive Run where
  | shell (code : Code)
  | program
  | zombie

/-- A process, with its children and the node that forked each of them. -/
structure Proc where
  run : Run
  files : Files
  kids : List (ℕ × Path)

/-- The processes by their pid. -/
abbrev Sys := ℕ → Option Proc

/-- What a process does on its own. -/
inductive Local : Proc → Proc → Prop
  | op {node o k m m' kids} (h : o.run node m = some m') :
      Local ⟨.shell (.op node o k), m, kids⟩ ⟨.shell k, m', kids⟩
  | waitNone {node k m} : Local ⟨.shell (.wait node k), m, []⟩ ⟨.shell k, m, []⟩
  | exec {node argv k m kids} : Local ⟨.shell (.exec node argv k), m, kids⟩ ⟨.program, m, kids⟩
  | execFails {node argv k m kids} : Local ⟨.shell (.exec node argv k), m, kids⟩ ⟨.shell k, m, kids⟩
  -- A process can be killed at any time, so an exit, and a panic after a system call that fails, can
  -- come anywhere. Its children are given to init.
  | exit {run m kids} : Local ⟨run, m, kids⟩ ⟨.zombie, (fun _ => none, m.2), []⟩

inductive Step (s : Sys) : Sys → Prop
  | own {i r r'} (hi : s i = some r) (h : Local r r') : Step s (update s i (some r'))
  | fork {i j node child k m kids} (hi : s i = some ⟨.shell (.fork node child k), m, kids⟩)
      (hj : s j = none) : Step s (update (update s i (some ⟨.shell k, m, (j,node) :: kids⟩)) j
        (some ⟨.shell child, m, []⟩))
  | wait {i node k m kids x z} (hi : s i = some ⟨.shell (.wait node k), m, kids⟩) (hx : x ∈ kids)
      (hz : s x.1 = some z) (hzombie : z.run = .zombie) :
      Step s (update (update s x.1 none) i (some ⟨.shell k, m, kids.erase x⟩))

/-- Descriptors 0, 1 and 2. -/
abbrev Io := ℕ → Obj

def std (io : Io) : Fds := fun fd => if fd < 3 then some (io fd) else none

def start (c : Cmd) : Sys := update (fun _ => none) 0 (some ⟨.shell (runcmd [] c), (std .given, 0, 0), []⟩)

def Reaches (c : Cmd) : Sys → Prop := ReflTransGen Step (start c)

/-- From a node to the next one below. -/
def pass (π : Path) : Bool → Cmd × Io → Option (Cmd × Io)
  | false, (.redir cmd file mode fd, io) => some (cmd, update io fd (.file file.text mode))
  | false, (.list left _, io) => some (left, io)
  | true, (.list _ right, io) => some (right, io)
  | false, (.pipe left _, io) => some (left, update io 1 (.write π))
  | true, (.pipe _ right, io) => some (right, update io 0 (.read π))
  | false, (.back cmd, io) => some (cmd, io)
  | _, _ => none

/-- The command of a node, and what is passed down to it. -/
def passed (c : Cmd) : Path → Option (Cmd × Io)
  | [] => some (c, .given)
  | b :: π => (passed c π).bind (pass π b)

/-- Every redirection is one of descriptor 0, 1 or 2. -/
def Cmd.Std : Cmd → Prop
  | .exec _ => True
  | .redir cmd _ _ fd => fd < 3 ∧ cmd.Std
  | .list left right | .pipe left right => left.Std ∧ right.Std
  | .back cmd => cmd.Std

/-- The process has exactly what is passed down to the node. -/
def Settled (c : Cmd) (node : Path) (P : Cmd → Prop) (m : Files) : Prop :=
  ∃ cmd io, passed c node = some (cmd,io) ∧ P cmd ∧ m.1 = std io

/-- The code does what it should from these descriptors and children on, whatever the pids of new
children are and whichever child `wait` returns. -/
def Safe (c : Cmd) : Code → Files → List (ℕ × Path) → Prop
  | .op node o k, m, kids => ∀ m', o.run node m = some m' → Safe c k m' kids
  | .fork node child k, m, kids => Safe c child m [] ∧ ∀ j, Safe c k m ((j,node) :: kids)
  | .wait node k, m, kids => Settled c node (fun cmd => ∀ bg, cmd ≠ .back bg) m ∧ kids ≠ [] ∧
      ∀ x ∈ kids, x.2 = node ∧ Safe c k m (kids.erase x)
  | .exec node argv k, m, kids => Settled c node (· = .exec argv) m ∧ Safe c k m kids
  | .exit node, m, _ => Settled c node (fun _ => True) m

section
variable {c cmd : Cmd} {io : Io} {k : Code} {m m' : Files} {kids : List (ℕ × Path)}
  {π node : Path} {o : Op} {f : Obj} {n : ℕ}

theorem Safe.op (hrun : o.run node m = some m') (hk : Safe c k m' kids) :
    Safe c (.op node o k) m kids := by
  intro _ h
  cases hrun.symm.trans h
  exact hk

theorem Safe.wait (hat : Settled c π (fun cmd => ∀ bg, cmd ≠ .back bg) m)
    (hkids : ∀ x ∈ kids, x.2 = π) (hne : kids ≠ [])
    (hk : ∀ kids' ⊆ kids, kids'.length+1 = kids.length → Safe c k m kids') :
    Safe c (.wait π k) m kids := by
  refine ⟨hat, hne, fun x hx => ⟨hkids x hx, hk _ List.erase_subset ?_⟩⟩
  rw [List.length_erase_of_mem hx]
  have := List.length_pos_of_mem hx
  omega

/-- After `pipe(p)`. -/
def pipeFds (π : Path) (io : Io) : Fds :=
  update (update (std io) 3 (some (.read π))) 4 (some (.write π))

theorem pipeEnd_safe {fd : ℕ × ℕ → ℕ}
    (h : n = 1 ∧ fd = Prod.snd ∧ f = .write π ∨ n = 0 ∧ fd = Prod.fst ∧ f = .read π)
    (hk : Safe c k (std (update io n f), 3, 4) []) :
    Safe c (pipeEnd π n fd k) (pipeFds π io, 3, 4) [] := by
  have hfds : update (update (update (update (pipeFds π io) n none) n (some f)) 3 none) 4 none =
      std (update io n f) := by
    funext m
    rcases h with ⟨rfl,-,rfl⟩ | ⟨rfl,-,rfl⟩ <;> rcases m with _ | _ | _ | _ | _ | m <;> rfl
  have hdup : (Op.dup fd).run π (update (pipeFds π io) n none, 3, 4) =
      some (update (update (pipeFds π io) n none) n (some f), 3, 4) := by
    rcases h with ⟨rfl,rfl,rfl⟩ | ⟨rfl,rfl,rfl⟩ <;> rfl
  exact .op rfl (.op hdup (.op rfl (.op rfl (hfds ▸ hk))))

theorem passed_below {b : Bool} {x : Cmd × Io} (h : passed c π = some x) :
    passed c (b :: π) = pass π b x := by
  rw [passed, h]
  rfl

theorem settled {P : Cmd → Prop} {p : ℕ × ℕ} (hpass : passed c π = some (cmd,io)) (hP : P cmd) :
    Settled c π P (std io, p) :=
  ⟨cmd, io, hpass, hP, rfl⟩

theorem runcmd_safe (hc : cmd.Std) (hpass : passed c π = some (cmd,io)) (p : ℕ × ℕ) :
    Safe c (runcmd π cmd) (std io, p) [] := by
  induction cmd generalizing π io p with
  | exec argv =>
    unfold runcmd
    split
    · exact settled hpass trivial
    · exact ⟨settled hpass rfl, settled hpass trivial⟩
  | redir cmd file mode fd ih =>
    have hfd := hc.1
    have hopen : (Op.open file.text mode).run π (update (std io) fd none, p) =
        some (std (update io fd (.file file.text mode)), p) := by
      rcases fd with _ | _ | _ | fd
      iterate 3
        refine congrArg (fun fds => some (fds,p)) (funext fun n => ?_)
        rcases n with _ | _ | _ | n <;> rfl
      omega
    exact .op rfl (.op hopen (ih hc.2 (passed_below hpass) p))
  | list left right ihl ihr =>
    refine ⟨ihl hc.1 (passed_below hpass) p, fun j => ?_⟩
    refine .wait (settled hpass (by simp)) (by simp) (by simp) fun kids' _ hlen => ?_
    rw [List.eq_nil_of_length_eq_zero (Nat.succ.inj hlen)]
    exact ihr hc.2 (passed_below hpass) p
  | pipe left right ihl ihr =>
    have hclosed : update (update (pipeFds π io) 3 none) 4 none = std io := by
      funext n
      rcases n with _ | _ | _ | _ | _ | n <;> rfl
    refine .op (show _ = some (pipeFds π io, 3, 4) from rfl) ⟨?_, fun j => ⟨?_, fun j' => ?_⟩⟩
    · exact pipeEnd_safe (.inl ⟨rfl,rfl,rfl⟩) (ihl hc.1 (passed_below hpass) (3,4))
    · exact pipeEnd_safe (.inr ⟨rfl,rfl,rfl⟩) (ihr hc.2 (passed_below hpass) (3,4))
    · -- both children are of this node, and each `wait` takes one of them
      have hkids : ∀ x ∈ [(j',π), (j,π)], x.2 = π := by simp
      refine .op rfl (.op rfl ?_)
      refine hclosed ▸ .wait (settled hpass (by simp)) hkids (by simp) fun kids hsub hlen => ?_
      have hlen : kids.length = 1 := Nat.succ.inj hlen
      exact .wait (settled hpass (by simp)) (fun x hx => hkids x (hsub hx))
        (List.ne_nil_of_length_pos (by omega)) fun _ _ _ => settled hpass trivial
  | back cmd ih => exact ⟨ih hc (passed_below hpass) p, fun _ => settled hpass trivial⟩

end

/-! Every process at every time. -/

def Proc.Ok (c : Cmd) : Proc → Prop
  | ⟨.shell code, m, kids⟩ => Safe c code m kids
  | _ => True

section
variable {c : Cmd} {s s' : Sys} {r r' : Proc} {i : ℕ} {node : Path} {k : Code} {argv : List Word}
  {m : Files} {kids : List (ℕ × Path)}

theorem Local.ok (h : Local r r') (hok : r.Ok c) : r'.Ok c := by
  cases h with
  | op h => exact hok _ h
  | waitNone => exact absurd rfl hok.2.1
  | exec | exit => trivial
  | execFails => exact hok.2

def Sys.Ok (c : Cmd) (s : Sys) : Prop := ∀ i r, s i = some r → r.Ok c

theorem Sys.Ok.update (h : Sys.Ok c s) (i : ℕ) {x : Option Proc} (hx : ∀ r ∈ x, r.Ok c) :
    Sys.Ok c (update s i x) :=
  (forall_update_iff s fun _ x => ∀ r, x = some r → r.Ok c).mpr ⟨hx, fun j _ => h j⟩

theorem Step.ok (h : Step s s') (hok : Sys.Ok c s) : Sys.Ok c s' := by
  cases h with
  | own hi h => exact hok.update _ (by rintro _ ⟨⟩; exact h.ok (hok _ _ hi))
  | fork hi hj =>
    have hr := hok _ _ hi
    exact (hok.update _ (by rintro _ ⟨⟩; exact hr.2 _)).update _ (by rintro _ ⟨⟩; exact hr.1)
  | wait hi hx =>
    have hr := hok _ _ hi
    exact (hok.update _ (by simp)).update _ (by rintro _ ⟨⟩; exact (hr.2.2 _ hx).2)

theorem Reaches.ok (hc : c.Std) (h : Reaches c s) : Sys.Ok c s := by
  induction h with
  | refl =>
    refine Sys.Ok.update (fun _ _ h => by cases h) 0 ?_
    rintro _ ⟨⟩
    exact runcmd_safe hc rfl _
  | tail _ hstep ih => exact hstep.ok ih

/-- Who is next in a run: process `i` makes a system call, or it forks and `j` is the new pid. -/
inductive Turn where
  | call (i : ℕ)
  | fork (i j : ℕ)

def Sys.turn (s : Sys) : Turn → Option Sys
  | .call i =>
    match s i with
    | some ⟨.shell (.op node o k), m, kids⟩ =>
      (o.run node m).map fun m' => update s i (some ⟨.shell k, m', kids⟩)
    | _ => none
  | .fork i j =>
    match s i, s j with
    | some ⟨.shell (.fork node child k), m, kids⟩, none =>
      some (update (update s i (some ⟨.shell k, m, (j,node) :: kids⟩)) j (some ⟨.shell child, m, []⟩))
    | _, _ => none

theorem Sys.turn_step {t : Turn} (h : s.turn t = some s') : Step s s' := by
  unfold Sys.turn at h
  split at h <;> split at h
  · next hi =>
    obtain ⟨m', hrun, rfl⟩ := Option.map_eq_some_iff.mp h
    exact .own hi (.op hrun)
  · cases h
  · next hi hj =>
    cases h
    exact .fork hi hj
  · cases h

theorem Reaches.turns (ts : List Turn) (h : Reaches c s) (hts : ts.foldlM Sys.turn s = some s') :
    Reaches c s' := by
  induction ts generalizing s with
  | nil =>
    cases hts
    exact h
  | cons t ts ih =>
    rw [List.foldlM_cons] at hts
    obtain ⟨s1, hturn, hrest⟩ := Option.bind_eq_some_iff.mp hts
    exact ih (h.tail (Sys.turn_step hturn)) hrest

/-- A process that comes to `exec` has open what is passed down to its node, and nothing else. -/
theorem exec_descriptors (hc : c.Std) (h : Reaches c s)
    (hi : s i = some ⟨.shell (.exec node argv k), m, kids⟩) : Settled c node (· = .exec argv) m :=
  (h.ok hc i _ hi).1

/-- `cat < in | wc > out`. -/
def catWc : Cmd :=
  .pipe (.redir (.exec [⟨['c','a','t'],[]⟩]) ⟨['i','n'],[]⟩ O_RDONLY 0)
    (.redir (.exec [⟨['w','c'],[]⟩]) ⟨['o','u','t'],[]⟩ (O_WRONLY ||| O_CREATE ||| O_TRUNC) 1)

/-- The pipe, the two forks, and the six calls that each child makes up to its `exec`. -/
def catWcTurns : List Turn :=
  [.call 0, .fork 0 1, .fork 0 2]++(List.replicate 6 [.call 1, .call 2]).flatten

theorem exec_descriptors_catWc : ∃ s m₁ m₂, Reaches catWc s ∧
    s 1 = some ⟨.shell (.exec [false,false] [⟨['c','a','t'],[]⟩] (.exit [false,false])), m₁, []⟩ ∧
    s 2 = some ⟨.shell (.exec [false,true] [⟨['w','c'],[]⟩] (.exit [false,true])), m₂, []⟩ ∧
    Settled catWc [false,false] (· = .exec [⟨['c','a','t'],[]⟩]) m₁ ∧
    Settled catWc [false,true] (· = .exec [⟨['w','c'],[]⟩]) m₂ ∧
    [m₁.1 0, m₁.1 1, m₁.1 3, m₁.1 4] = [some (.file ['i','n'] 0), some (.write []), none, none] ∧
    [m₂.1 0, m₂.1 1, m₂.1 3, m₂.1 4] = [some (.read []), some (.file ['o','u','t'] 0x601), none, none] := by
  have hstd : catWc.Std := by simp [catWc, Cmd.Std]
  have hrun : Reaches catWc _ := Reaches.turns catWcTurns .refl rfl
  exact ⟨_, _, _, hrun, rfl, rfl, exec_descriptors (i := 1) hstd hrun rfl,
    exec_descriptors (i := 2) hstd hrun rfl, rfl, rfl⟩

/-- A process that waits has a child. Its children are those that the same node has forked and not
put in the background, and it has no descriptor but those passed down to the node. -/
theorem wait_own_children (hc : c.Std) (h : Reaches c s)
    (hi : s i = some ⟨.shell (.wait node k), m, kids⟩) :
    kids ≠ [] ∧ (∀ x ∈ kids, x.2 = node) ∧ Settled c node (fun cmd => ∀ bg, cmd ≠ .back bg) m := by
  obtain ⟨hat,hne,hkids⟩ := h.ok hc i _ hi
  exact ⟨hne, fun x hx => (hkids x hx).1, hat⟩

theorem wait_own_children_list : ∃ s m, Reaches (.list (.exec []) (.exec [])) s ∧
    s 0 = some ⟨.shell (.wait [] (.exit [true])), m, [(1,[])]⟩ ∧
      Settled (.list (.exec []) (.exec [])) [] (fun cmd => ∀ bg, cmd ≠ .back bg) m := by
  have hrun : Reaches (.list (.exec []) (.exec [])) _ := .single (.fork (i := 0) (j := 1) rfl rfl)
  exact ⟨_, _, hrun, rfl, (wait_own_children (i := 0) (by simp [Cmd.Std]) hrun rfl).2.2⟩

def Redir.fd (r : Redir) : ℕ := if r.1 = .input then 0 else 1

theorem passed_redirs {io : Io} {rs : List Redir} {cmd : Cmd}
    (h : passed c node = some (rs.foldl Redir.wrap cmd, io)) :
    ∃ io', passed c (List.replicate rs.length false ++ node) = some (cmd,io') ∧ ∀ fd,
      match rs.find? (·.fd = fd) with
      | some r => ∃ mode, io' fd = .file r.2.text mode
      | none => io' fd = io fd := by
  induction rs using List.reverseRecOn generalizing node io with
  | nil => exact ⟨io, h, fun _ => rfl⟩
  | append_singleton rs r ih =>
    rw [List.foldl_append] at h
    obtain ⟨mode,hwrap⟩ : ∃ mode, Redir.wrap (rs.foldl Redir.wrap cmd) r =
        .redir (rs.foldl Redir.wrap cmd) r.2 mode r.fd := by
      rcases r with ⟨_ | _ | _,w⟩ <;> exact ⟨_,rfl⟩
    obtain ⟨io',hpass,hio⟩ := ih ((passed_below h).trans (congrArg (fun c => pass node false (c,io)) hwrap))
    refine ⟨io', ?_, fun fd => ?_⟩
    · rw [List.length_append, List.length_singleton, List.replicate_succ', List.append_assoc]
      exact hpass
    · have hfd := hio fd
      rw [List.find?_append]
      cases hfind : rs.find? (·.fd = fd) with
      | some r' =>
        rw [hfind] at hfd
        exact hfd
      | none =>
        rw [hfind] at hfd
        by_cases hr : r.fd = fd
        · subst hr
          rw [update_self] at hfd
          simpa using ⟨mode,hfd⟩
        · rw [update_of_ne (Ne.symm hr)] at hfd
          simpa [hr] using hfd

/-- Of several redirections of one descriptor the first one in the text wins, since `runcmd` comes
to the last one first. -/
theorem first_redirection_wins {io : Io} {fd : ℕ} {r : Redir} {ws : List Word} (rs : List Redir)
    (hc : c.Std) (h : Reaches c s) (hpass : passed c node = some (rs.foldl Redir.wrap (.exec ws), io))
    (hi : s i = some ⟨.shell (.exec (List.replicate rs.length false ++ node) argv k), m, kids⟩)
    (hr : rs.find? (·.fd = fd) = some r) : ∃ mode, m.1 fd = some (.file r.2.text mode) := by
  obtain ⟨_,io1,hpass1,-,hm⟩ := (h.ok hc i _ hi).1
  obtain ⟨io2,hpass2,hio⟩ := passed_redirs hpass
  cases hpass1.symm.trans hpass2
  have hfd : r.fd = fd := by simpa using List.find?_some hr
  have hlt : fd < 3 := by
    unfold Redir.fd at hfd
    split_ifs at hfd <;> omega
  have hfile := hio fd
  rw [hr] at hfile
  obtain ⟨mode,hmode⟩ := hfile
  exact ⟨mode, by rw [hm, std, if_pos hlt, hmode]⟩

/-- `a < x < y`. -/
def inputTwice : List Redir := [(.input,⟨['x'],[]⟩), (.input,⟨['y'],[]⟩)]

theorem first_redirection_wins_two : ∃ s m, Reaches (inputTwice.foldl Redir.wrap (.exec [⟨['a'],[]⟩])) s ∧
    s 0 = some ⟨.shell (.exec [false,false] [⟨['a'],[]⟩] (.exit [false,false])), m, []⟩ ∧
      ∃ mode, m.1 0 = some (.file ['x'] mode) := by
  have hrun : Reaches (inputTwice.foldl Redir.wrap (.exec [⟨['a'],[]⟩])) _ :=
    Reaches.turns (List.replicate 4 (.call 0)) .refl rfl
  exact ⟨_, _, hrun, rfl, first_redirection_wins (r := (.input,⟨['x'],[]⟩)) (i := 0) inputTwice
    (by simp [Cmd.Std, Redir.wrap, inputTwice]) hrun rfl rfl rfl⟩

end

end Xv6.Shell
