import Xv6.User.Sh.Lex

/-!
# The shell's parser: `parsecmd`

`parsecmd` of `sh.c` parses a command line by recursive descent: `parseline`, `parsepipe`,
`parseexec` and `parseblock` call each other, `parseredirs` reads the redirections after a word
or a block, and `peek` gives one token of lookahead. A syntax error calls `panic`, here an
`Except.error` with its message. A tree holds pointers into the line: a word is its `q` and
its `eq`. `nulterminate` then writes a NUL at every word's `eq`, so that `argv[i]` and a file
name read as C strings.

Each parse function started at `*ps = ps` returns its tree and the new `*ps` as a `Parsed`
value, which carries that the pointer did not move back. Each recursive call is then made at a
later position, or at the same position from a function higher in the order `parseline`,
`parsepipe`, `parseexec`, `parseblock`: the measure `(length - ps, rank)` decreases, and the
parser ends on every line.
-/

namespace Xv6

namespace Sh

/-- `MAXARGS` of `sh.c`. -/
def MAXARGS : Nat := 10

/-- A command tree of `sh.c`: `struct cmd` and its five kinds. A word is the pair of pointers
around it, `argv[i]` and `eargv[i]`, or `file` and `efile`. -/
inductive Cmd where
  | exec (argv : List (Nat × Nat))
  | redir (cmd : Cmd) (file efile : Nat) (mode fd : Nat)
  | pipe (left right : Cmd)
  | list (left right : Cmd)
  | back (cmd : Cmd)
  deriving DecidableEq, Repr

/-- A redirection as `parseredirs` reads it: the token, and the file's `q` and `eq`. -/
structure Redir where
  tok : UInt8
  file : Nat
  efile : Nat
  deriving DecidableEq, Repr

/-- The `switch(tok)` of `parseredirs`: `cmd = redircmd(cmd, q, eq, mode, fd)`. -/
def Redir.apply (cmd : Cmd) (r : Redir) : Cmd :=
  if r.tok = '<'.toUInt8 then .redir cmd r.file r.efile O_RDONLY 0
  else if r.tok = '>'.toUInt8 then .redir cmd r.file r.efile (O_WRONLY ||| O_CREATE) 1
  else if r.tok = '+'.toUInt8 then .redir cmd r.file r.efile (O_WRONLY ||| O_CREATE) 1
  else cmd

/-- `cmd` wrapped by the redirections `rs`, the first read innermost. -/
def redirect (cmd : Cmd) (rs : List Redir) : Cmd := rs.foldl Redir.apply cmd

@[simp] theorem redirect_nil (cmd : Cmd) : redirect cmd [] = cmd := rfl

@[simp] theorem redirect_cons (cmd : Cmd) (r : Redir) (rs : List Redir) :
    redirect cmd (r :: rs) = redirect (r.apply cmd) rs := rfl

theorem redirect_append (cmd : Cmd) (rs rs' : List Redir) :
    redirect cmd (rs ++ rs') = redirect (redirect cmd rs) rs' :=
  List.foldl_append

/-- What a parse function started at `*ps = ps` returns: a value and the new `*ps`, never
before `ps`. -/
structure Parsed (α : Type) (ps : Nat) where
  val : α
  pos : Nat
  le_pos : ps ≤ pos

/-- A result of a call made at `p`, returned by a caller started at `ps ≤ p`. -/
def Parsed.from {α : Type} {ps p : Nat} (r : Parsed α p) (h : ps ≤ p) : Parsed α ps :=
  ⟨r.val, r.pos, Nat.le_trans h r.le_pos⟩

@[simp] theorem Parsed.from_val {α : Type} {ps p : Nat} (r : Parsed α p) (h : ps ≤ p) :
    (r.from h).val = r.val := rfl

@[simp] theorem Parsed.from_pos {α : Type} {ps p : Nat} (r : Parsed α p) (h : ps ≤ p) :
    (r.from h).pos = r.pos := rfl

section Progress

variable {buf : List UInt8} {ps : Nat} {toks : List UInt8}

/-- After a `peek` that saw a symbol, `gettoken` takes it and moves `*ps` on. -/
theorem peek_gettoken (h : (peek buf ps toks).1 = true) :
    ps < (gettoken buf (peek buf ps toks).2).2.2.2 ∧
      (gettoken buf (peek buf ps toks).2).2.2.2 ≤ buf.length := by
  have hc : buf.getD (skipWs buf ps) 0 ≠ 0 := by
    simp only [peek, Bool.and_eq_true, decide_eq_true_eq] at h
    exact h.1
  rw [peek_snd, gettoken_skipWs]
  exact lt_gettoken fun h0 => hc (gettoken_eq_zero_iff.mp h0)

theorem le_peek_gettoken (buf : List UInt8) (ps : Nat) (toks : List UInt8) :
    ps ≤ (gettoken buf (peek buf ps toks).2).2.2.2 :=
  (le_skipWs buf ps).trans (le_gettoken buf _)

/-- The parser's measure drops at a token `peek` saw at `x`, for a caller started at `ps ≤ x`. -/
theorem sub_gettoken_lt {x : Nat} (h : (peek buf x toks).1 = true) (hx : ps ≤ x) :
    buf.length - (gettoken buf (peek buf x toks).2).2.2.2 < buf.length - ps := by
  have := peek_gettoken h
  omega

end Progress

/-- `parseredirs`: the redirections read, in order. While `peek` sees `<` or `>`, it takes the
token and the word after it, which must be a word. -/
def parseredirs (buf : List UInt8) (ps : Nat) : Except String (Parsed (List Redir) ps) :=
  let p := peek buf ps (cstr "<>")
  if p.1 then
    let tok := gettoken buf p.2
    let w := gettoken buf tok.2.2.2
    if w.1 ≠ 'a'.toUInt8 then .error "missing file for redirection"
    else do
      let rs ← parseredirs buf w.2.2.2
      return ⟨⟨tok.1, w.2.1, w.2.2.1⟩ :: rs.val, rs.pos,
        (le_peek_gettoken buf ps _).trans ((le_gettoken buf _).trans rs.le_pos)⟩
  else .ok ⟨[], p.2, le_skipWs buf ps⟩
termination_by buf.length - ps
decreasing_by
  have h1 : buf.length - (gettoken buf (peek buf ps (cstr "<>")).2).2.2.2 < buf.length - ps :=
    sub_gettoken_lt ‹_› le_rfl
  have h2 := le_gettoken buf (gettoken buf (peek buf ps (cstr "<>")).2).2.2.2
  omega

/-- The loop `while(!peek(ps, es, "|)&;"))` of `parseexec`, with the words `argv` and the
redirections `rs` read so far: a word, then `parseredirs`, until `peek` sees `|`, `)`, `&` or
`;`, or the line ends. Any other token is a syntax error, and the word that makes `argc` reach
`MAXARGS` is one too many. -/
def execLoop (buf : List UInt8) (ps : Nat) (argv : List (Nat × Nat)) (rs : List Redir) :
    Except String (Parsed (List (Nat × Nat) × List Redir) ps) :=
  let p := peek buf ps (cstr "|)&;")
  if p.1 then .ok ⟨(argv, rs), p.2, le_skipWs buf ps⟩
  else
    let g := gettoken buf p.2
    if g.1 = 0 then .ok ⟨(argv, rs), g.2.2.2, le_peek_gettoken buf ps _⟩
    else if g.1 ≠ 'a'.toUInt8 then .error "syntax"
    else if MAXARGS ≤ argv.length + 1 then .error "too many args"
    else do
      let r ← parseredirs buf g.2.2.2
      let l ← execLoop buf r.pos (argv ++ [(g.2.1, g.2.2.1)]) (rs ++ r.val)
      return l.from ((le_peek_gettoken buf ps _).trans r.le_pos)
termination_by buf.length - ps
decreasing_by
  have h1 : p.2 < g.2.2.2 ∧ g.2.2.2 ≤ buf.length := lt_gettoken ‹_›
  have h2 : ps ≤ p.2 := le_skipWs buf ps
  have h3 : g.2.2.2 ≤ r.pos := r.le_pos
  omega

/-- The loop `while(peek(ps, es, "&"))` of `parseline`: `cmd = backcmd(cmd)` for every `&`. -/
def backs (buf : List UInt8) (cmd : Cmd) (ps : Nat) : Parsed Cmd ps :=
  let p := peek buf ps (cstr "&")
  if p.1 then (backs buf (.back cmd) (gettoken buf p.2).2.2.2).from (le_peek_gettoken buf ps _)
  else ⟨cmd, p.2, le_skipWs buf ps⟩
termination_by buf.length - ps
decreasing_by exact sub_gettoken_lt ‹_› le_rfl

mutual

/-- `parseline`: a pipeline, every `&` after it, and after a `;` the rest of the line. -/
def parseline (buf : List UInt8) (ps : Nat) : Except String (Parsed Cmd ps) := do
  let r ← parsepipe buf ps
  let b := backs buf r.val r.pos
  let p := peek buf b.pos (cstr ";")
  if p.1 then
    let l ← parseline buf (gettoken buf p.2).2.2.2
    return ⟨.list b.val l.val, l.pos,
      r.le_pos.trans (b.le_pos.trans ((le_peek_gettoken buf _ _).trans l.le_pos))⟩
  else return ⟨b.val, p.2, r.le_pos.trans (b.le_pos.trans (le_skipWs buf _))⟩
termination_by (buf.length - ps, 3)
decreasing_by
  all_goals rw [Prod.lex_def]
  · exact .inr ⟨rfl, Nat.lt_succ_self _⟩
  · exact .inl (sub_gettoken_lt ‹_› (r.le_pos.trans b.le_pos))

/-- `parsepipe`: a command, and after a `|` the rest of the pipeline. -/
def parsepipe (buf : List UInt8) (ps : Nat) : Except String (Parsed Cmd ps) := do
  let r ← parseexec buf ps
  let p := peek buf r.pos (cstr "|")
  if p.1 then
    let r' ← parsepipe buf (gettoken buf p.2).2.2.2
    return ⟨.pipe r.val r'.val, r'.pos,
      r.le_pos.trans ((le_peek_gettoken buf _ _).trans r'.le_pos)⟩
  else return ⟨r.val, p.2, r.le_pos.trans (le_skipWs buf _)⟩
termination_by (buf.length - ps, 2)
decreasing_by
  all_goals rw [Prod.lex_def]
  · exact .inr ⟨rfl, Nat.lt_succ_self _⟩
  · exact .inl (sub_gettoken_lt ‹_› r.le_pos)

/-- `parseexec`: a block if `peek` sees `(`; otherwise a command of words and redirections.
The command's node is filled with its words through `cmd` while `ret` wraps it in the
redirections, so the tree is that node, with every word, under every redirection in order. -/
def parseexec (buf : List UInt8) (ps : Nat) : Except String (Parsed Cmd ps) :=
  let p := peek buf ps (cstr "(")
  if p.1 then (parseblock buf p.2).map (·.from (le_skipWs buf ps))
  else do
    let rs ← parseredirs buf p.2
    let w ← execLoop buf rs.pos [] rs.val
    return ⟨redirect (.exec w.val.1) w.val.2, w.pos,
      (le_skipWs buf ps).trans (rs.le_pos.trans w.le_pos)⟩
termination_by (buf.length - ps, 1)
decreasing_by
  rw [Prod.lex_def, peek_snd]
  have := le_skipWs buf ps
  omega

/-- `parseblock`: `(`, a line, `)`, and the redirections of the block. -/
def parseblock (buf : List UInt8) (ps : Nat) : Except String (Parsed Cmd ps) :=
  let p := peek buf ps (cstr "(")
  if p.1 then do
    let l ← parseline buf (gettoken buf p.2).2.2.2
    let p' := peek buf l.pos (cstr ")")
    if p'.1 then
      let rs ← parseredirs buf (gettoken buf p'.2).2.2.2
      return ⟨redirect l.val rs.val, rs.pos,
        (le_peek_gettoken buf ps _).trans (l.le_pos.trans ((le_peek_gettoken buf _ _).trans rs.le_pos))⟩
    else .error "syntax - missing )"
  else .error "parseblock"
termination_by (buf.length - ps, 0)
decreasing_by
  rw [Prod.lex_def]
  exact .inl (sub_gettoken_lt ‹_› le_rfl)

end

/-- `nulterminate(cmd)` on the memory `m` of the line: a NUL at the end of every word. -/
def nulterminate : Cmd → List UInt8 → List UInt8
  | .exec argv, m => argv.foldl (fun m w => m.set w.2 0) m
  | .redir cmd _ efile _ _, m => (nulterminate cmd m).set efile 0
  | .pipe l r, m => nulterminate r (nulterminate l m)
  | .list l r, m => nulterminate r (nulterminate l m)
  | .back cmd, m => nulterminate cmd m

/-- The bytes of a C string `s`: those before its first NUL. -/
def cline (s : List UInt8) : List UInt8 := s.takeWhile (· ≠ 0)

/-- The C string at `q` in the memory `m`. -/
def cstring (m : List UInt8) (q : Nat) : List UInt8 := (m.drop q).takeWhile (· ≠ 0)

/-- `parsecmd(s)`: the tree, and the memory of the line after `nulterminate`. `es` is
`s + strlen(s)`, and after the tree only blanks may be left: otherwise `leftovers` and a
syntax error. -/
def parsecmd (s : List UInt8) : Except String (Cmd × List UInt8) := do
  let buf := cline s
  let r ← parseline buf 0
  if (peek buf r.pos (cstr "")).2 ≠ buf.length then .error "syntax"
  else return (r.val, nulterminate r.val (buf ++ [0]))

end Sh

end Xv6
