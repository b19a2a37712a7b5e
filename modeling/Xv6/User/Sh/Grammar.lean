import Xv6.User.Sh.Parse

/-!
# The grammar of the shell's command lines

The grammar the parser of `sh.c` is written for, over the tokens `lex` takes from the line:

    line  ::= pipe '&'* (';' line)?
    pipe  ::= exec ('|' pipe)?
    exec  ::= '(' line ')' redir*  |  redir* (WORD redir*)*     (fewer than MAXARGS words)
    redir ::= ('<' | '>' | '>>') WORD

`Derives X ts c` says that the tokens `ts` derive from the nonterminal `X`, with `c` the tree
of the derivation: a `list` for `;`, a `pipe` for `|`, a `back` for each `&`, the
redirections wrapped around their command in the order they appear, and the words of a
command in its `exec` node.

The parser reads exactly this grammar. Each parse function that succeeds has read tokens that
derive what it returns (`parse_sound`); and tokens that derive a tree, followed by a token the
grammar lets follow, are read by the parse function into that tree (`parse_complete`). At the
end of the line this gives `parsecmd_derives`: `parsecmd` returns a tree exactly when the line's
tokens derive it from `line`, and after `nulterminate` every word of the tree reads as a C
string that is the word itself.
-/

namespace Xv6

namespace Sh

/-! ## The grammar -/

/-- The kinds of the redirection tokens `<`, `>` and `>>`. -/
def IsRedir (k : UInt8) : Prop := k = '<'.toUInt8 ∨ k = '>'.toUInt8 ∨ k = '+'.toUInt8

/-- `redir*`, with the redirections it reads: a redirection token and a word, again and
again. -/
inductive Redirs : List Tok → List Redir → Prop
  | nil : Redirs [] []
  | cons {t w : Tok} {ts : List Tok} {rs : List Redir} (ht : IsRedir t.kind)
      (hw : w.kind = 'a'.toUInt8) (h : Redirs ts rs) :
      Redirs (t :: w :: ts) (⟨t.kind, w.q, w.eq⟩ :: rs)

/-- `(WORD redir*)*`, with its words and the redirections after them. -/
inductive Words : List Tok → List (Nat × Nat) → List Redir → Prop
  | nil : Words [] [] []
  | cons {w : Tok} {ts ts' : List Tok} {rs rs' : List Redir} {ws : List (Nat × Nat)}
      (hw : w.kind = 'a'.toUInt8) (hr : Redirs ts rs) (h : Words ts' ws rs') :
      Words (w :: (ts ++ ts')) ((w.q, w.eq) :: ws) (rs ++ rs')

/-- `'&'*` after a pipeline: each `&` puts the command built so far in the background. -/
inductive Amps : List Tok → Cmd → Cmd → Prop
  | nil (c : Cmd) : Amps [] c c
  | cons {t : Tok} {ts : List Tok} {c c' : Cmd} (ht : t.kind = '&'.toUInt8)
      (h : Amps ts (.back c) c') : Amps (t :: ts) c c'

/-- The nonterminals `line`, `pipe` and `exec`. -/
inductive Sym where
  | line
  | pipe
  | exec
  deriving DecidableEq, Repr

/-- `Derives X ts c`: the tokens `ts` derive from `X`, and `c` is the derivation's tree. -/
inductive Derives : Sym → List Tok → Cmd → Prop
  /-- `line ::= pipe '&'*` -/
  | line {ts as : List Tok} {c c' : Cmd} (hp : Derives .pipe ts c) (ha : Amps as c c') :
      Derives .line (ts ++ as) c'
  /-- `line ::= pipe '&'* ';' line` -/
  | list {ts as ts' : List Tok} {t : Tok} {c c' c'' : Cmd} (hp : Derives .pipe ts c)
      (ha : Amps as c c') (ht : t.kind = ';'.toUInt8) (hl : Derives .line ts' c'') :
      Derives .line (ts ++ as ++ t :: ts') (.list c' c'')
  /-- `pipe ::= exec` -/
  | pipe {ts : List Tok} {c : Cmd} (he : Derives .exec ts c) : Derives .pipe ts c
  /-- `pipe ::= exec '|' pipe` -/
  | pipeCons {ts ts' : List Tok} {t : Tok} {c c' : Cmd} (he : Derives .exec ts c)
      (ht : t.kind = '|'.toUInt8) (hp : Derives .pipe ts' c') :
      Derives .pipe (ts ++ t :: ts') (.pipe c c')
  /-- `exec ::= '(' line ')' redir*` -/
  | block {ts ts' : List Tok} {t t' : Tok} {c : Cmd} {rs : List Redir}
      (ht : t.kind = '('.toUInt8) (hl : Derives .line ts c) (ht' : t'.kind = ')'.toUInt8)
      (hr : Redirs ts' rs) : Derives .exec (t :: (ts ++ t' :: ts')) (redirect c rs)
  /-- `exec ::= redir* (WORD redir*)*`, with fewer than `MAXARGS` words -/
  | exec {ts ts' : List Tok} {rs rs' : List Redir} {ws : List (Nat × Nat)}
      (hr : Redirs ts rs) (hw : Words ts' ws rs') (hn : ws.length < MAXARGS) :
      Derives .exec (ts ++ ts') (redirect (.exec ws) (rs ++ rs'))

/-- The parse function of each nonterminal. -/
def Sym.parse : Sym → (buf : List UInt8) → (ps : Nat) → Except String (Parsed Cmd ps)
  | .line => parseline
  | .pipe => parsepipe
  | .exec => parseexec

/-- The kinds of the tokens that may follow each nonterminal where the parser leaves it:
`)` after a line in a block; `&` and `;` after a pipeline; `|` after a command. -/
def Sym.follow : Sym → List UInt8
  | .line => [')'.toUInt8]
  | .pipe => ['&'.toUInt8, ';'.toUInt8, ')'.toUInt8]
  | .exec => ['|'.toUInt8, '&'.toUInt8, ';'.toUInt8, ')'.toUInt8]

/-- The rest of the tokens is empty or starts with a token of one of the kinds `ks`. -/
def Ends (ks : List UInt8) (rest : List Tok) : Prop := ∀ t ∈ rest.head?, t.kind ∈ ks

/-- A parse that started at `ps` and stopped at `pos` read the tokens of `lex` between them,
which `D` accepts, and it stayed within the line. -/
structure Reads (buf : List UInt8) (ps pos : Nat) (D : List Tok → Prop) : Prop where
  read : ∃ pre, lex buf ps = pre ++ lex buf pos ∧ D pre
  bound : ps ≤ buf.length → pos ≤ buf.length

/-! ## Symbols -/

section Symbols

@[simp] theorem toUInt8_a : 'a'.toUInt8 = 0x61 := by decide
@[simp] theorem toUInt8_bar : '|'.toUInt8 = 0x7C := by decide
@[simp] theorem toUInt8_lparen : '('.toUInt8 = 0x28 := by decide
@[simp] theorem toUInt8_rparen : ')'.toUInt8 = 0x29 := by decide
@[simp] theorem toUInt8_semi : ';'.toUInt8 = 0x3B := by decide
@[simp] theorem toUInt8_amp : '&'.toUInt8 = 0x26 := by decide
@[simp] theorem toUInt8_lt : '<'.toUInt8 = 0x3C := by decide
@[simp] theorem toUInt8_gt : '>'.toUInt8 = 0x3E := by decide
@[simp] theorem toUInt8_plus : '+'.toUInt8 = 0x2B := by decide

theorem cstr_redirs : cstr "<>" = [0x3C, 0x3E] := by decide
theorem cstr_stops : cstr "|)&;" = [0x7C, 0x29, 0x26, 0x3B] := by decide
theorem cstr_amp : cstr "&" = ['&'.toUInt8] := by decide
theorem cstr_semi : cstr ";" = [';'.toUInt8] := by decide
theorem cstr_bar : cstr "|" = ['|'.toUInt8] := by decide
theorem cstr_lparen : cstr "(" = ['('.toUInt8] := by decide
theorem cstr_rparen : cstr ")" = [')'.toUInt8] := by decide

theorem redirs_symbols : ∀ c ∈ cstr "<>", c ∈ symbols := by simp [cstr_redirs, symbols_eq]
theorem stops_symbols : ∀ c ∈ cstr "|)&;", c ∈ symbols := by simp [cstr_stops, symbols_eq]
theorem amp_symbols : ∀ c ∈ cstr "&", c ∈ symbols := by simp [cstr_amp, symbols_eq]
theorem semi_symbols : ∀ c ∈ cstr ";", c ∈ symbols := by simp [cstr_semi, symbols_eq]
theorem bar_symbols : ∀ c ∈ cstr "|", c ∈ symbols := by simp [cstr_bar, symbols_eq]
theorem lparen_symbols : ∀ c ∈ cstr "(", c ∈ symbols := by simp [cstr_lparen, symbols_eq]
theorem rparen_symbols : ∀ c ∈ cstr ")", c ∈ symbols := by simp [cstr_rparen, symbols_eq]

/-- `peek` sees a redirection exactly at the kinds `<`, `>` and `>>`. -/
theorem strchr_redirs_iff (k : UInt8) : strchr (cstr "<>") (lead k) = true ↔ IsRedir k := by
  rw [cstr_redirs]
  unfold lead IsRedir
  simp only [toUInt8_lt, toUInt8_gt, toUInt8_plus]
  split_ifs with h <;> simp [strchr, h]

/-- A `peek` at one symbol other than `>` sees exactly the tokens of that kind. -/
theorem strchr_single_lead {toks : List UInt8} {c : UInt8} (htoks : toks = [c])
    (hgt : c ≠ '>'.toUInt8) (hplus : c ≠ '+'.toUInt8) (k : UInt8) :
    strchr toks (lead k) = true ↔ k = c := by
  subst htoks
  unfold lead
  simp only [toUInt8_gt, toUInt8_plus] at hgt hplus ⊢
  split_ifs with h
  · subst h
    simp [strchr, Ne.symm hgt, Ne.symm hplus]
  · simp [strchr, eq_comm]

/-- `peek` sees no symbol at a word. -/
theorem peeks_word {toks : List UInt8} (htoks : ∀ c ∈ toks, c ∈ symbols) {t : Tok}
    (ht : t.kind = 'a'.toUInt8) (ts : List Tok) : peeks toks (t :: ts) = false := by
  rw [peeks_cons, lead, if_neg (by rw [ht]; decide), ht]
  exact strchr_of_not_symbol htoks (by decide)

end Symbols

/-! ## Reading `lex` -/

section Reading

variable {buf : List UInt8} {ps : Nat} {toks : List UInt8}

/-- A `peek` that saw one of `toks`: `gettoken` takes the head of `lex`. -/
theorem lex_of_peek (htoks : ∀ c ∈ toks, c ∈ symbols) (h : (peek buf ps toks).1 = true) :
    lex buf ps = tokenAt buf (peek buf ps toks).2 ::
        lex buf (gettoken buf (peek buf ps toks).2).2.2.2 ∧
      strchr toks (lead (tokenAt buf (peek buf ps toks).2).kind) = true := by
  rw [peek_fst htoks, ← lex_skipWs] at h
  rw [peek_snd, ← lex_skipWs buf ps]
  have hk : (gettoken buf (skipWs buf ps)).1 ≠ 0 := fun h0 => by
    rw [lex_of_eq_zero h0] at h
    exact Bool.false_ne_true h
  rw [lex_of_ne_zero hk] at h ⊢
  exact ⟨rfl, h⟩

/-- `peek` leaves `*ps` where `lex` gives the same tokens. -/
@[simp] theorem lex_peek (buf : List UInt8) (ps : Nat) (toks : List UInt8) :
    lex buf (peek buf ps toks).2 = lex buf ps := by
  rw [peek_snd, lex_skipWs]

theorem peek_le_length (toks : List UInt8) (h : ps ≤ buf.length) :
    (peek buf ps toks).2 ≤ buf.length :=
  skipWs_le_length h

/-- A `peek` that saw the symbol `c`, other than `>`, saw a token of kind `c`. -/
theorem kind_of_peek (htoks : ∀ c ∈ toks, c ∈ symbols) {c : UInt8} (hc : toks = [c])
    (hgt : c ≠ '>'.toUInt8) (hplus : c ≠ '+'.toUInt8) (h : (peek buf ps toks).1 = true) :
    (tokenAt buf (peek buf ps toks).2).kind = c :=
  (strchr_single_lead hc hgt hplus _).mp (lex_of_peek htoks h).2

/-- A `peek` at a token of `toks` sees it, and the `gettoken` after it takes it and leaves the
rest of `lex`. -/
theorem peek_of_lex (htoks : ∀ c ∈ toks, c ∈ symbols) {t : Tok} {rest : List Tok}
    (hl : lex buf ps = t :: rest) (ht : strchr toks (lead t.kind) = true) :
    (peek buf ps toks).1 = true ∧ tokenAt buf (peek buf ps toks).2 = t ∧
      lex buf (gettoken buf (peek buf ps toks).2).2.2.2 = rest := by
  have hp : (peek buf ps toks).1 = true := by
    rw [peek_fst htoks, hl]
    exact ht
  have hl' := (lex_of_peek htoks hp).1
  rw [hl, List.cons.injEq] at hl'
  exact ⟨hp, hl'.1.symm, hl'.2.symm⟩

end Reading

/-! ## What a parse reads

A parse is taken apart into the steps it makes, each of which `Reads` some tokens: `peek`
skips blanks and reads nothing, `gettoken` reads one token, and the parse functions it calls
read what they derive. `Reads.trans` puts two steps together, and `Reads.mono` turns what the
steps read into what the caller derives. -/

section Reads

variable {buf : List UInt8} {ps p q : Nat} {toks : List UInt8} {D D' D1 D2 : List Tok → Prop}

theorem Reads.trans (h1 : Reads buf ps p D1) (h2 : Reads buf p q D2) :
    Reads buf ps q (fun pre => ∃ a b, D1 a ∧ D2 b ∧ pre = a ++ b) := by
  obtain ⟨⟨a, ha, hD1⟩, hb1⟩ := h1
  obtain ⟨⟨b, hb, hD2⟩, hb2⟩ := h2
  exact ⟨⟨a ++ b, by rw [ha, hb, List.append_assoc], a, b, hD1, hD2, rfl⟩, hb2 ∘ hb1⟩

theorem Reads.mono (h : Reads buf ps q D) (hD : ∀ pre, D pre → D' pre) : Reads buf ps q D' := by
  obtain ⟨⟨pre, hl, hpre⟩, hb⟩ := h
  exact ⟨⟨pre, hl, hD pre hpre⟩, hb⟩

/-- `peek` only skips blanks. -/
theorem reads_peek (toks : List UInt8) : Reads buf ps (peek buf ps toks).2 (· = []) :=
  ⟨⟨[], (lex_peek buf ps toks).symm, rfl⟩, peek_le_length toks⟩

/-- `gettoken` reads one token, and nothing at the end of the line. -/
theorem reads_gettoken (h : (gettoken buf ps).1 ≠ 0) :
    Reads buf ps (gettoken buf ps).2.2.2 (· = [tokenAt buf ps]) :=
  ⟨⟨[_], lex_of_ne_zero h, rfl⟩, gettoken_le_length⟩

theorem reads_end (h : (gettoken buf ps).1 = 0) :
    Reads buf ps (gettoken buf ps).2.2.2 (· = []) := by
  refine ⟨⟨[], ?_, rfl⟩, gettoken_le_length⟩
  rw [lex_of_eq_zero h, lex_gettoken_of_eq_zero h, List.nil_append]

/-- A `peek` that saw one of `toks`, and the `gettoken` after it, read the token it saw. -/
theorem reads_token (htoks : ∀ c ∈ toks, c ∈ symbols) (h : (peek buf ps toks).1 = true) :
    Reads buf ps (gettoken buf (peek buf ps toks).2).2.2.2
      (· = [tokenAt buf (peek buf ps toks).2]) :=
  ⟨⟨[_], (lex_of_peek htoks h).1, rfl⟩, fun hx => gettoken_le_length (peek_le_length toks hx)⟩

end Reads

/-! ## What may follow

A parse function stops where `peek` sees a token that may follow its nonterminal, or at the
end of the line. -/

section Follow

variable {ks ks' toks : List UInt8} {ts rest : List Tok}

theorem Ends.nil (ks : List UInt8) : Ends ks [] := fun _ h => nomatch h

theorem Ends.cons {t : Tok} (h : t.kind ∈ ks) (ts : List Tok) : Ends ks (t :: ts) := by
  rintro _ ⟨⟩
  exact h

theorem Ends.append (h1 : Ends ks ts) (h2 : Ends ks rest) : Ends ks (ts ++ rest) := by
  cases ts with
  | nil => exact h2
  | cons t ts => exact h1

theorem Ends.mono (h : Ends ks rest) (hks : ks ⊆ ks') : Ends ks' rest := fun t ht => hks (h t ht)

/-- `peek` sees a token that may follow, when it sees all the kinds that may. -/
theorem peeks_of_ends (he : Ends ks rest) (hks : ∀ k ∈ ks, strchr toks (lead k) = true)
    (hne : rest ≠ []) : peeks toks rest = true := by
  cases rest with
  | nil => exact absurd rfl hne
  | cons t ts => exact hks _ (he t rfl)

/-- `peek` sees no token that may follow, when it sees none of the kinds that may. -/
theorem peeks_eq_false_of_ends (he : Ends ks rest)
    (hks : ∀ k ∈ ks, strchr toks (lead k) = false) : peeks toks rest = false := by
  cases rest with
  | nil => rfl
  | cons t ts => exact hks _ (he t rfl)

theorem stops_follow : ∀ k ∈ Sym.exec.follow, strchr (cstr "|)&;") (lead k) = true := by
  simp [Sym.follow, cstr_stops, strchr, lead]

theorem redirs_follow : ∀ k ∈ Sym.exec.follow, strchr (cstr "<>") (lead k) = false := by
  simp [Sym.follow, cstr_redirs, strchr, lead]

theorem Amps.ends {as : List Tok} {c c' : Cmd} (ha : Amps as c c') (hk : '&'.toUInt8 ∈ ks) :
    Ends ks as := by
  cases ha with
  | nil => exact Ends.nil ks
  | cons ht _ => exact Ends.cons (ht ▸ hk) _

/-- `peek` sees none of `toks` at redirections, when it sees no redirection and none of `toks`
after them. -/
theorem Redirs.peeks_eq_false {pre : List Tok} {rs : List Redir} (hr : Redirs pre rs)
    (htoks : ∀ k, IsRedir k → strchr toks (lead k) = false) (hrest : peeks toks rest = false) :
    peeks toks (pre ++ rest) = false := by
  cases hr with
  | nil => exact hrest
  | cons ht _ _ => exact htoks _ ht

/-- `peek` sees no symbol at words, when it sees none after them. -/
theorem Words.peeks_eq_false {pre : List Tok} {ws : List (Nat × Nat)} {rs : List Redir}
    (hw : Words pre ws rs) (htoks : ∀ c ∈ toks, c ∈ symbols) (hrest : peeks toks rest = false) :
    peeks toks (pre ++ rest) = false := by
  cases hw with
  | nil => exact hrest
  | cons hwk _ _ => exact peeks_word htoks hwk _

end Follow

/-! ## `parseredirs` -/

section Redirs

variable {buf : List UInt8} {ps : Nat}

theorem parseredirs_sound {r : Parsed (List Redir) ps} (h : parseredirs buf ps = .ok r) :
    Reads buf ps r.pos (Redirs · r.val) := by
  induction ps using parseredirs.induct buf
  case case1 x p hp tok w hw =>
    rw [parseredirs, if_pos hp, if_pos hw] at h
    cases h
  case case2 x p hp tok w hw ih =>
    rw [parseredirs, if_pos hp, if_neg hw, Except.bind_eq_ok_iff] at h
    obtain ⟨a, ha, hr⟩ := h
    cases hr
    -- the file after the redirection token is a word
    have hw' : w.1 = 'a'.toUInt8 := not_not.mp hw
    refine (((reads_token redirs_symbols hp).trans (reads_gettoken (hw' ▸ by decide))).trans
      (ih ha)).mono ?_
    rintro _ ⟨_, pre, ⟨_, _, rfl, rfl, rfl⟩, hd, rfl⟩
    exact Redirs.cons ((strchr_redirs_iff _).mp (lex_of_peek redirs_symbols hp).2) hw' hd
  case case3 x p hp =>
    rw [parseredirs, if_neg hp] at h
    cases h
    exact (reads_peek (cstr "<>")).mono fun _ h => h ▸ Redirs.nil

theorem parseredirs_complete {pre rest : List Tok} {rs : List Redir} (hd : Redirs pre rs) :
    ∀ {ps}, lex buf ps = pre ++ rest → peeks (cstr "<>") rest = false →
      ∃ r, parseredirs buf ps = .ok r ∧ r.val = rs ∧ lex buf r.pos = rest := by
  induction hd with
  | nil =>
    intro ps hl hstop
    have hp : (peek buf ps (cstr "<>")).1 = false := by
      rw [peek_fst redirs_symbols, hl]
      exact hstop
    rw [parseredirs, if_neg (by simp [hp])]
    exact ⟨_, rfl, rfl, by rw [lex_peek, hl, List.nil_append]⟩
  | cons ht hw _ ih =>
    intro ps hl hstop
    obtain ⟨hp, rfl, hl2⟩ := peek_of_lex redirs_symbols hl ((strchr_redirs_iff _).mpr ht)
    obtain ⟨-, rfl, hl3⟩ := lex_eq_cons_iff.mp hl2
    obtain ⟨r', hr', hv, hpos⟩ := ih hl3 hstop
    have hw' : (gettoken buf (gettoken buf (peek buf ps (cstr "<>")).2).2.2.2).1 = 'a'.toUInt8 := hw
    rw [parseredirs, if_pos hp]
    dsimp only
    rw [if_neg (not_not.mpr hw'), hr']
    exact ⟨_, rfl, by rw [← hv]; rfl, hpos⟩

end Redirs

/-! ## The loops of `parseline` and `parseexec` -/

section Loops

variable {buf : List UInt8} {ps : Nat}

theorem backs_sound (c : Cmd) (ps : Nat) :
    Reads buf ps (backs buf c ps).pos (Amps · c (backs buf c ps).val) := by
  induction c, ps using backs.induct buf
  case case1 c x p hp ih =>
    rw [backs, if_pos hp, Parsed.from_pos, Parsed.from_val]
    refine ((reads_token amp_symbols hp).trans ih).mono ?_
    rintro _ ⟨_, pre, rfl, ha, rfl⟩
    exact Amps.cons (kind_of_peek amp_symbols cstr_amp (by decide) (by decide) hp) ha
  case case2 c x p hp =>
    rw [backs, if_neg hp]
    exact (reads_peek (cstr "&")).mono fun _ h => h ▸ Amps.nil c

theorem backs_complete {as rest : List Tok} {c c' : Cmd} (ha : Amps as c c') :
    ∀ {ps}, lex buf ps = as ++ rest → peeks (cstr "&") rest = false →
      (backs buf c ps).val = c' ∧ lex buf (backs buf c ps).pos = rest := by
  induction ha with
  | nil c =>
    intro ps hl hstop
    have hp : (peek buf ps (cstr "&")).1 = false := by
      rw [peek_fst amp_symbols, hl]
      exact hstop
    rw [backs, if_neg (by simp [hp])]
    exact ⟨rfl, by rw [lex_peek, hl, List.nil_append]⟩
  | cons ht _ ih =>
    intro ps hl hstop
    obtain ⟨hp, -, hl2⟩ := peek_of_lex amp_symbols hl
      ((strchr_single_lead cstr_amp (by decide) (by decide) _).mpr ht)
    rw [backs, if_pos hp, Parsed.from_val, Parsed.from_pos]
    exact ih hl2 hstop

/-- What `execLoop` started with the words `argv` and the redirections `rs` returns, after
reading the tokens `pre`: `argv` and `rs` followed by what `pre` gives. -/
def ReadsWords (argv : List (Nat × Nat)) (rs : List Redir) (v : List (Nat × Nat) × List Redir)
    (pre : List Tok) : Prop :=
  ∃ ws rs', Words pre ws rs' ∧ v = (argv ++ ws, rs ++ rs')

theorem execLoop_sound {argv : List (Nat × Nat)} {rs : List Redir}
    {r : Parsed (List (Nat × Nat) × List Redir) ps} (h : execLoop buf ps argv rs = .ok r) :
    Reads buf ps r.pos (ReadsWords argv rs r.val) ∧
      (argv.length < MAXARGS → r.val.1.length < MAXARGS) := by
  induction ps, argv, rs using execLoop.induct buf
  case case1 x argv rs p hp =>
    rw [execLoop, if_pos hp] at h
    cases h
    exact ⟨(reads_peek (cstr "|)&;")).mono fun _ h => ⟨[], [], h ▸ Words.nil, by simp⟩, id⟩
  case case2 x argv rs p hp g hg =>
    rw [execLoop, if_neg hp] at h
    dsimp only at h
    rw [if_pos hg] at h
    cases h
    -- the line ends here
    refine ⟨((reads_peek (cstr "|)&;")).trans (reads_end hg)).mono ?_, id⟩
    rintro _ ⟨_, _, rfl, rfl, rfl⟩
    exact ⟨[], [], Words.nil, by simp⟩
  case case3 x argv rs p hp g hg ha =>
    rw [execLoop, if_neg hp] at h
    dsimp only at h
    rw [if_neg hg, if_pos ha] at h
    cases h
  case case4 x argv rs p hp g hg ha hmax =>
    rw [execLoop, if_neg hp] at h
    dsimp only at h
    rw [if_neg hg, if_neg ha, if_pos hmax] at h
    cases h
  case case5 x argv rs p hp g hg ha hmax ih =>
    rw [execLoop, if_neg hp] at h
    dsimp only at h
    rw [if_neg hg, if_neg ha, if_neg hmax, Except.bind_eq_ok_iff] at h
    obtain ⟨r1, hr1, h⟩ := h
    rw [Except.bind_eq_ok_iff] at h
    obtain ⟨l, hl, hr⟩ := h
    cases hr
    obtain ⟨hread, hlen⟩ := ih r1 hl
    refine ⟨((((reads_peek (cstr "|)&;")).trans (reads_gettoken hg)).trans
      (parseredirs_sound hr1)).trans hread).mono ?_, fun _ => hlen (by simp; omega)⟩
    rintro _ ⟨_, pre2, ⟨_, pre1, ⟨_, _, rfl, rfl, rfl⟩, hd1, rfl⟩, ⟨ws, rs', hw, hv⟩, rfl⟩
    refine ⟨(g.2.1, g.2.2.1) :: ws, r1.val ++ rs', Words.cons (not_not.mp ha) hd1 hw, ?_⟩
    rw [Parsed.from_val, hv]
    simp

theorem execLoop_complete {pre rest : List Tok} {ws : List (Nat × Nat)} {rs' : List Redir}
    (hw : Words pre ws rs') (he : Ends Sym.exec.follow rest) :
    ∀ {ps argv rs}, lex buf ps = pre ++ rest → argv.length + ws.length < MAXARGS →
      ∃ r, execLoop buf ps argv rs = .ok r ∧ r.val = (argv ++ ws, rs ++ rs') ∧
        lex buf r.pos = rest := by
  induction hw with
  | nil =>
    intro ps argv rs hl _
    rw [List.nil_append] at hl
    by_cases hrest : rest = []
    · -- the line ends
      subst hrest
      have hp : (peek buf ps (cstr "|)&;")).1 = false := by
        rw [peek_fst stops_symbols, hl]
        rfl
      have hg : (gettoken buf (peek buf ps (cstr "|)&;")).2).1 = 0 := by
        rw [← lex_eq_nil_iff, lex_peek, hl]
      rw [execLoop, if_neg (by simp [hp])]
      dsimp only
      rw [if_pos hg]
      exact ⟨_, rfl, by simp, lex_gettoken_of_eq_zero hg⟩
    · have hp : (peek buf ps (cstr "|)&;")).1 = true := by
        rw [peek_fst stops_symbols, hl]
        exact peeks_of_ends he stops_follow hrest
      rw [execLoop, if_pos hp]
      exact ⟨_, rfl, by simp, by rw [lex_peek, hl]⟩
  | @cons w ts ts' rs1 rs2 ws2 hwk hr hw2 ih =>
    intro ps argv rs hl hlen
    have hp : (peek buf ps (cstr "|)&;")).1 = false := by
      rw [peek_fst stops_symbols, hl, List.cons_append]
      exact peeks_word stops_symbols hwk _
    have hl' : lex buf (peek buf ps (cstr "|)&;")).2 = w :: (ts ++ (ts' ++ rest)) := by
      rw [lex_peek, hl, List.cons_append, List.append_assoc]
    obtain ⟨hk, htok, hl2⟩ := lex_eq_cons_iff.mp hl'
    have hmax : ¬MAXARGS ≤ argv.length + 1 := by
      simp at hlen
      omega
    obtain ⟨r1, hr1, hv1, hpos1⟩ := parseredirs_complete hr hl2
      (Words.peeks_eq_false hw2 redirs_symbols (peeks_eq_false_of_ends he redirs_follow))
    obtain ⟨l, hl3, hv2, hpos2⟩ := @ih r1.pos (argv ++ [(w.q, w.eq)]) (rs ++ r1.val) hpos1
      (by simp at hlen ⊢; omega)
    subst htok
    have hwk' : (gettoken buf (peek buf ps (cstr "|)&;")).2).1 = 'a'.toUInt8 := hwk
    rw [execLoop, if_neg (by simp [hp])]
    dsimp only
    rw [if_neg hk, if_neg (not_not.mpr hwk'), if_neg hmax]
    refine ⟨_, Except.bind_eq_ok_iff.mpr ⟨r1, hr1, Except.bind_eq_ok_iff.mpr ⟨l, hl3, rfl⟩⟩, ?_,
      hpos2⟩
    rw [Parsed.from_val, hv2, hv1]
    simp

end Loops

/-! ## The parse functions -/

section Parse

variable {buf : List UInt8}

@[simp] theorem Sym.parse_line : Sym.line.parse = parseline := rfl
@[simp] theorem Sym.parse_pipe : Sym.pipe.parse = parsepipe := rfl
@[simp] theorem Sym.parse_exec : Sym.exec.parse = parseexec := rfl

/-- Each parse function that succeeds read tokens that derive its tree: from its nonterminal,
and a block for `parseblock`. The induction is the parser's own, over the calls the four
functions make to each other. -/
theorem parse_sound_all (buf : List UInt8) :
    (∀ ps (r : Parsed Cmd ps), parseline buf ps = .ok r →
      Reads buf ps r.pos (Derives .line · r.val)) ∧
    (∀ ps (r : Parsed Cmd ps), parsepipe buf ps = .ok r →
      Reads buf ps r.pos (Derives .pipe · r.val)) ∧
    (∀ ps (r : Parsed Cmd ps), parseexec buf ps = .ok r →
      Reads buf ps r.pos (Derives .exec · r.val)) ∧
    (∀ ps (r : Parsed Cmd ps), parseblock buf ps = .ok r →
      Reads buf ps r.pos (Derives .exec · r.val)) := by
  apply parseline.mutual_induct buf
  · -- parseline
    intro ps ihp ihl r h
    rw [parseline, Except.bind_eq_ok_iff] at h
    obtain ⟨r1, hr1, h⟩ := h
    dsimp only at h
    have hpb := (ihp r1 hr1).trans (backs_sound r1.val r1.pos)
    by_cases hp : (peek buf (backs buf r1.val r1.pos).pos (cstr ";")).1 = true
    · rw [if_pos hp, Except.bind_eq_ok_iff] at h
      obtain ⟨l, hl, hr⟩ := h
      cases hr
      refine ((hpb.trans (reads_token semi_symbols hp)).trans (ihl r1 hp l hl)).mono ?_
      rintro _ ⟨_, d, ⟨_, _, ⟨a, b, ha, hb, rfl⟩, rfl, rfl⟩, hd, rfl⟩
      rw [List.append_assoc, List.singleton_append]
      exact Derives.list ha hb (kind_of_peek semi_symbols cstr_semi (by decide) (by decide) hp) hd
    · rw [if_neg hp] at h
      cases h
      refine (hpb.trans (reads_peek (cstr ";"))).mono ?_
      rintro _ ⟨_, _, ⟨a, b, ha, hb, rfl⟩, rfl, rfl⟩
      rw [List.append_nil]
      exact Derives.line ha hb
  · -- parsepipe
    intro ps ihe ihp r h
    rw [parsepipe, Except.bind_eq_ok_iff] at h
    obtain ⟨r1, hr1, h⟩ := h
    dsimp only at h
    by_cases hp : (peek buf r1.pos (cstr "|")).1 = true
    · rw [if_pos hp, Except.bind_eq_ok_iff] at h
      obtain ⟨l, hl, hr⟩ := h
      cases hr
      refine (((ihe r1 hr1).trans (reads_token bar_symbols hp)).trans (ihp r1 hp l hl)).mono ?_
      rintro _ ⟨_, d, ⟨a, _, ha, rfl, rfl⟩, hd, rfl⟩
      rw [List.append_assoc, List.singleton_append]
      exact Derives.pipeCons ha (kind_of_peek bar_symbols cstr_bar (by decide) (by decide) hp) hd
    · rw [if_neg hp] at h
      cases h
      refine ((ihe r1 hr1).trans (reads_peek (cstr "|"))).mono ?_
      rintro _ ⟨a, _, ha, rfl, rfl⟩
      rw [List.append_nil]
      exact Derives.pipe ha
  · -- parseexec at a block
    intro ps p hp ihb r h
    rw [parseexec, if_pos hp, Except.map_eq_ok_iff] at h
    obtain ⟨b, hb, rfl⟩ := h
    show Reads buf ps b.pos (Derives .exec · b.val)
    refine ((reads_peek (cstr "(")).trans (ihb b hb)).mono ?_
    rintro _ ⟨_, a, rfl, ha, rfl⟩
    exact ha
  · -- parseexec at words and redirections
    intro ps p hp r h
    rw [parseexec, if_neg hp, Except.bind_eq_ok_iff] at h
    obtain ⟨rs, hrs, h⟩ := h
    rw [Except.bind_eq_ok_iff] at h
    obtain ⟨w, hw, hr⟩ := h
    cases hr
    obtain ⟨hread, hlen⟩ := execLoop_sound hw
    refine (((reads_peek (cstr "(")).trans (parseredirs_sound hrs)).trans hread).mono ?_
    rintro _ ⟨_, b, ⟨_, a, rfl, ha, rfl⟩, ⟨ws, rs', hb, hv⟩, rfl⟩
    have hn : ws.length < MAXARGS := by
      simpa [hv] using hlen (by decide)
    rw [hv]
    exact Derives.exec ha hb hn
  · -- parseblock
    intro ps p hp ihl r h
    rw [parseblock, if_pos hp, Except.bind_eq_ok_iff] at h
    obtain ⟨l, hl, h⟩ := h
    by_cases hp' : (peek buf l.pos (cstr ")")).1 = true
    · rw [if_pos hp', Except.bind_eq_ok_iff] at h
      obtain ⟨rs, hrs, hr⟩ := h
      cases hr
      refine ((((reads_token lparen_symbols hp).trans (ihl l hl)).trans
        (reads_token rparen_symbols hp')).trans (parseredirs_sound hrs)).mono ?_
      rintro _ ⟨_, c, ⟨_, _, ⟨_, b, rfl, hb, rfl⟩, rfl, rfl⟩, hc, rfl⟩
      simp only [List.append_assoc, List.cons_append]
      exact Derives.block (kind_of_peek lparen_symbols cstr_lparen (by decide) (by decide) hp) hb
        (kind_of_peek rparen_symbols cstr_rparen (by decide) (by decide) hp') hc
    · rw [if_neg hp'] at h
      cases h
  · -- parseblock without `(`
    intro ps p hp r h
    rw [parseblock] at h
    dsimp only at h
    rw [if_neg hp] at h
    cases h

/-- Tokens that derive a tree from `X`, followed by a token that may follow `X`, are read by
`X`'s parse function into that tree. The induction is on the derivation. -/
theorem parse_complete {X : Sym} {ts : List Tok} {c : Cmd} (hd : Derives X ts c) :
    ∀ {ps rest}, lex buf ps = ts ++ rest → Ends X.follow rest →
      ∃ r, X.parse buf ps = .ok r ∧ r.val = c ∧ lex buf r.pos = rest := by
  induction hd with
  | @line ts as c c' hp ha ih =>
    intro ps rest hl he
    obtain ⟨r1, hr1, rfl, hpos1⟩ := @ih ps (as ++ rest) (by rw [hl, List.append_assoc])
      ((ha.ends (by simp [Sym.follow])).append (he.mono (by simp [Sym.follow])))
    obtain ⟨hb1, hb2⟩ := backs_complete ha hpos1
      (peeks_eq_false_of_ends he (by simp [Sym.follow, strchr, lead, cstr_amp]))
    have hp : (peek buf (backs buf r1.val r1.pos).pos (cstr ";")).1 = false := by
      rw [peek_fst semi_symbols, hb2]
      exact peeks_eq_false_of_ends he (by simp [Sym.follow, strchr, lead, cstr_semi])
    rw [Sym.parse_pipe] at hr1
    rw [Sym.parse_line, parseline, hr1, Except.ok_bind]
    dsimp only
    rw [if_neg (by simp [hp])]
    exact ⟨_, rfl, hb1, by rw [lex_peek, hb2]⟩
  | @list ts as ts' t c c' c'' hp ha ht hl ihp ihl =>
    intro ps rest hlx he
    obtain ⟨r1, hr1, rfl, hpos1⟩ := @ihp ps (as ++ t :: (ts' ++ rest)) (by rw [hlx]; simp)
      ((ha.ends (by simp [Sym.follow])).append (Ends.cons (by simp [ht, Sym.follow]) _))
    obtain ⟨hb1, hb2⟩ := backs_complete ha hpos1
      (by rw [peeks_cons, ht]; simp [strchr, lead, cstr_amp])
    obtain ⟨hp, -, hnext⟩ := peek_of_lex semi_symbols hb2
      ((strchr_single_lead cstr_semi (by decide) (by decide) _).mpr ht)
    obtain ⟨l, hl1, rfl, hpos2⟩ := @ihl _ rest hnext he
    rw [Sym.parse_pipe] at hr1
    rw [Sym.parse_line] at hl1
    rw [Sym.parse_line, parseline, hr1, Except.ok_bind]
    dsimp only
    rw [if_pos hp, hl1, Except.ok_bind]
    exact ⟨_, rfl, by rw [hb1], hpos2⟩
  | @pipe ts c he ih =>
    intro ps rest hl hend
    obtain ⟨r1, hr1, rfl, hpos1⟩ := @ih ps rest hl (hend.mono (by simp [Sym.follow]))
    have hp : (peek buf r1.pos (cstr "|")).1 = false := by
      rw [peek_fst bar_symbols, hpos1]
      exact peeks_eq_false_of_ends hend (by simp [Sym.follow, strchr, lead, cstr_bar])
    rw [Sym.parse_exec] at hr1
    rw [Sym.parse_pipe, parsepipe, hr1, Except.ok_bind]
    dsimp only
    rw [if_neg (by simp [hp])]
    exact ⟨_, rfl, rfl, by rw [lex_peek, hpos1]⟩
  | @pipeCons ts ts' t c c' he ht hp ihe ihp =>
    intro ps rest hl hend
    obtain ⟨r1, hr1, rfl, hpos1⟩ := @ihe ps (t :: (ts' ++ rest)) (by rw [hl]; simp)
      (Ends.cons (by simp [ht, Sym.follow]) _)
    obtain ⟨hpk, -, hnext⟩ := peek_of_lex bar_symbols hpos1
      ((strchr_single_lead cstr_bar (by decide) (by decide) _).mpr ht)
    obtain ⟨r2, hr2, rfl, hpos2⟩ := @ihp _ rest hnext hend
    rw [Sym.parse_exec] at hr1
    rw [Sym.parse_pipe] at hr2
    rw [Sym.parse_pipe, parsepipe, hr1, Except.ok_bind]
    dsimp only
    rw [if_pos hpk, hr2, Except.ok_bind]
    exact ⟨_, rfl, rfl, hpos2⟩
  | @block ts ts' t t' c rs ht hl ht' hr ihl =>
    intro ps rest hlx hend
    have hlx' : lex buf ps = t :: (ts ++ t' :: (ts' ++ rest)) := by
      rw [hlx]
      simp
    have hlp : strchr (cstr "(") (lead t.kind) = true :=
      (strchr_single_lead cstr_lparen (by decide) (by decide) _).mpr ht
    obtain ⟨hp, -, -⟩ := peek_of_lex lparen_symbols hlx' hlp
    -- `parseblock` peeks at the same `(` again
    obtain ⟨hp2, -, hnext⟩ := peek_of_lex lparen_symbols ((lex_peek buf ps (cstr "(")).trans hlx')
      hlp
    obtain ⟨l, hl1, hv, hpos1⟩ := @ihl _ (t' :: (ts' ++ rest)) hnext
      (Ends.cons (by simp [ht', Sym.follow]) _)
    obtain ⟨hp3, -, hnext3⟩ := peek_of_lex rparen_symbols hpos1
      ((strchr_single_lead cstr_rparen (by decide) (by decide) _).mpr ht')
    obtain ⟨rs1, hrs, rfl, hpos2⟩ := parseredirs_complete hr hnext3
      (peeks_eq_false_of_ends hend redirs_follow)
    rw [Sym.parse_line] at hl1
    rw [Sym.parse_exec, parseexec, if_pos hp, parseblock, if_pos hp2, hl1, Except.ok_bind]
    dsimp only
    rw [if_pos hp3, hrs, Except.ok_bind]
    exact ⟨_, rfl, by rw [← hv]; rfl, hpos2⟩
  | @exec ts ts' rs rs' ws hr hw hn =>
    intro ps rest hl hend
    have hp : (peek buf ps (cstr "(")).1 = false := by
      rw [peek_fst lparen_symbols, hl, List.append_assoc]
      refine Redirs.peeks_eq_false hr ?_ (Words.peeks_eq_false hw lparen_symbols
        (peeks_eq_false_of_ends hend (by simp [Sym.follow, strchr, lead, cstr_lparen])))
      rintro k (rfl | rfl | rfl) <;> simp [strchr, lead, cstr_lparen]
    have hl' : lex buf (peek buf ps (cstr "(")).2 = ts ++ (ts' ++ rest) := by
      rw [lex_peek, hl, List.append_assoc]
    obtain ⟨r1, hr1, rfl, hpos1⟩ := parseredirs_complete hr hl'
      (Words.peeks_eq_false hw redirs_symbols (peeks_eq_false_of_ends hend redirs_follow))
    obtain ⟨w, hw1, hv, hpos2⟩ : ∃ r, execLoop buf r1.pos [] r1.val = .ok r ∧
        r.val = ([] ++ ws, r1.val ++ rs') ∧ lex buf r.pos = rest :=
      execLoop_complete hw hend hpos1 (by simpa using hn)
    rw [Sym.parse_exec, parseexec, if_neg (by simp [hp]), hr1, Except.ok_bind, hw1,
      Except.ok_bind]
    exact ⟨_, rfl, by simp [hv], hpos2⟩

end Parse

end Sh

end Xv6
