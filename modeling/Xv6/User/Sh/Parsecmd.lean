import Xv6.User.Sh.Grammar

/-!
# `parsecmd` reads the grammar

`parsecmd` returns a tree exactly when the tokens of the line derive it from `line`
(`parsecmd_ok_iff`, from `parse_sound_all` and `parse_complete` at the end of the line). After
`nulterminate`, every word of the tree reads as a C string that is exactly the word's bytes
(`parsecmd_words`): `nulterminate` writes a `NUL` at the end of every word, and no word of the
line ends inside another (`lex_words_apart`), so the `NUL` after a word is its own.
-/

namespace Xv6

namespace Sh

/-- The words of a tree, in the order `nulterminate` visits them: each `argv[i]` of an `exec`
and the `file` of each redirection, as the pair of pointers around it. -/
def Cmd.words : Cmd → List (Nat × Nat)
  | .exec argv => argv
  | .redir cmd file efile _ _ => cmd.words ++ [(file, efile)]
  | .pipe l r => l.words ++ r.words
  | .list l r => l.words ++ r.words
  | .back cmd => cmd.words

/-! ## The words of a derivation -/

section Words

/-- Each of `ws` is the `q` and `eq` of a word among the tokens `ts`. -/
def WordsOf (ts : List Tok) (ws : List (Nat × Nat)) : Prop :=
  ∀ w ∈ ws, ∃ t ∈ ts, t.kind = 'a'.toUInt8 ∧ (t.q, t.eq) = w

variable {ts ts' : List Tok} {ws ws' : List (Nat × Nat)}

theorem WordsOf.mono (h : WordsOf ts ws) (hts : ts ⊆ ts') : WordsOf ts' ws := fun w hw => by
  obtain ⟨t, ht, hk, htw⟩ := h w hw
  exact ⟨t, hts ht, hk, htw⟩

theorem WordsOf.append (h : WordsOf ts ws) (h' : WordsOf ts ws') : WordsOf ts (ws ++ ws') :=
  fun w hw => (List.mem_append.mp hw).elim (h w) (h' w)

/-- A redirection adds its file to the words of the command it wraps. -/
theorem words_apply (c : Cmd) (r : Redir) :
    (r.apply c).words ⊆ c.words ++ [(r.file, r.efile)] := by
  unfold Redir.apply
  split_ifs <;> simp [Cmd.words]

theorem words_redirect (c : Cmd) (rs : List Redir) :
    (redirect c rs).words ⊆ c.words ++ rs.map fun r => (r.file, r.efile) := by
  induction rs generalizing c with
  | nil => simp
  | cons r rs ih =>
    intro w hw
    rcases List.mem_append.mp (ih (r.apply c) hw) with h | h
    · rcases List.mem_append.mp (words_apply c r h) with h | h <;> simp_all
    · simp_all

theorem Redirs.wordsOf {rs : List Redir} (h : Redirs ts rs) :
    WordsOf ts (rs.map fun r => (r.file, r.efile)) := by
  induction h with
  | nil => simp [WordsOf]
  | @cons t w ts rs _ hw _ ih =>
    intro x hx
    rcases List.mem_cons.mp hx with rfl | hx
    · exact ⟨w, by simp, hw, rfl⟩
    · exact (ih.mono fun u hu => by simp [hu]) x hx

theorem Words.wordsOf {rs : List Redir} (h : Words ts ws rs) :
    WordsOf ts (ws ++ rs.map fun r => (r.file, r.efile)) := by
  induction h with
  | nil => simp [WordsOf]
  | @cons w ts ts' rs rs' ws hw hr _ ih =>
    intro x hx
    simp only [List.cons_append, List.mem_cons, List.map_append, List.mem_append] at hx
    -- the word itself, a file of its redirections, or a word or file of the words after it
    rcases hx with rfl | hx | hx | hx
    · exact ⟨w, by simp, hw, rfl⟩
    · exact (ih.mono fun u hu => by simp [hu]) x (List.mem_append_left _ hx)
    · exact (hr.wordsOf.mono fun u hu => by simp [hu]) x hx
    · exact (ih.mono fun u hu => by simp [hu]) x (List.mem_append_right _ hx)

/-- `&` puts a command in the background and leaves its words. -/
theorem Amps.words_eq {as : List Tok} {c c' : Cmd} (h : Amps as c c') : c'.words = c.words := by
  induction h with
  | nil => rfl
  | cons _ _ ih => exact ih

/-- Every word of the tree of a derivation is a word among its tokens. -/
theorem Derives.wordsOf {X : Sym} {c : Cmd} (hd : Derives X ts c) : WordsOf ts c.words := by
  induction hd with
  | line _ ha ih =>
    rw [ha.words_eq]
    exact ih.mono fun u hu => by simp [hu]
  | list _ ha _ _ ihp ihl =>
    rw [Cmd.words, ha.words_eq]
    exact (ihp.mono fun u hu => by simp [hu]).append (ihl.mono fun u hu => by simp [hu])
  | pipe _ ih => exact ih
  | pipeCons _ _ _ ihe ihp =>
    exact (ihe.mono fun u hu => by simp [hu]).append (ihp.mono fun u hu => by simp [hu])
  | block _ _ _ hr ih =>
    intro w hw
    rcases List.mem_append.mp (words_redirect _ _ hw) with hw | hw
    · exact (ih.mono fun u hu => by simp [hu]) w hw
    · exact (hr.wordsOf.mono fun u hu => by simp [hu]) w hw
  | exec hr hw _ =>
    intro w hw'
    rcases List.mem_append.mp (words_redirect _ _ hw') with hw' | hw'
    · exact (hw.wordsOf.mono fun u hu => by simp [hu]) w (List.mem_append_left _ hw')
    · rw [List.map_append] at hw'
      rcases List.mem_append.mp hw' with hw' | hw'
      · exact (hr.wordsOf.mono fun u hu => by simp [hu]) w hw'
      · exact (hw.wordsOf.mono fun u hu => by simp [hu]) w (List.mem_append_right _ hw')

end Words

/-! ## `nulterminate` -/

section Nul

/-- `nulterminate` writes a `NUL` at the end of every word of the tree, in order. -/
theorem nulterminate_eq (c : Cmd) (m : List UInt8) :
    nulterminate c m = c.words.foldl (fun m w => m.set w.2 0) m := by
  induction c generalizing m with
  | exec argv => rfl
  | redir cmd file efile mode fd ih => simp [nulterminate, Cmd.words, ih]
  | pipe l r ihl ihr => simp [nulterminate, Cmd.words, ihl, ihr]
  | list l r ihl ihr => simp [nulterminate, Cmd.words, ihl, ihr]
  | back cmd ih => exact ih m

theorem length_foldl_set (ws : List (Nat × Nat)) (m : List UInt8) :
    (ws.foldl (fun m w => m.set w.2 0) m).length = m.length := by
  induction ws generalizing m with
  | nil => rfl
  | cons w ws ih => rw [List.foldl_cons, ih, List.length_set]

/-- After the writes, a byte is `NUL` where a word ends, and what it was everywhere else. -/
theorem getD_foldl_set (ws : List (Nat × Nat)) (m : List UInt8) (i : Nat) :
    (ws.foldl (fun m w => m.set w.2 0) m).getD i 0 =
      if ∃ w ∈ ws, w.2 = i then 0 else m.getD i 0 := by
  induction ws generalizing m with
  | nil => simp
  | cons w ws ih =>
    rw [List.foldl_cons, ih]
    by_cases h : ∃ w' ∈ ws, w'.2 = i
    · simp [h]
    · by_cases hw : w.2 = i
      · subst hw
        simp [List.getD_eq_getElem?_getD, List.getElem?_set]
        split_ifs <;> simp_all
      · simp [h, hw, List.getD_eq_getElem?_getD]

/-- The C string at `q` in `m` is the bytes `[q, e)` of `buf`, when `m` agrees with `buf` on
them, none of them is `NUL`, and `m` has a `NUL` at `e`. -/
theorem cstring_eq_of_agree {m buf : List UInt8} {q e : Nat} (hqe : q ≤ e) (he : e ≤ buf.length)
    (hm : e < m.length) (hz : m.getD e 0 = 0)
    (hagree : ∀ i, q ≤ i → i < e → m.getD i 0 = buf.getD i 0 ∧ buf.getD i 0 ≠ 0) :
    cstring m q = (buf.drop q).take (e - q) := by
  induction h : e - q generalizing q with
  | zero =>
    have hq : q = e := by omega
    subst hq
    have hz' : m[q] = 0 := by rwa [List.getD_eq_getElem _ _ hm] at hz
    rw [cstring, List.drop_eq_getElem_cons hm, List.takeWhile_cons_of_neg (by simp [hz']),
      List.take_zero]
  | succ n ih =>
    have hq : q < e := by omega
    obtain ⟨hmq, hbq⟩ := hagree q le_rfl hq
    rw [List.getD_eq_getElem _ _ (by omega : q < buf.length)] at hmq hbq
    rw [List.getD_eq_getElem _ _ (by omega : q < m.length)] at hmq
    have hrest := ih (q := q + 1) (by omega) (fun i h1 h2 => hagree i (by omega) h2) (by omega)
    rw [cstring] at hrest
    rw [cstring, List.drop_eq_getElem_cons (by omega : q < m.length),
      List.takeWhile_cons_of_pos (by simp [hmq, hbq]), hrest,
      List.drop_eq_getElem_cons (by omega : q < buf.length), List.take_succ_cons, hmq]

end Nul

/-! ## `parsecmd` -/

section Parsecmd

theorem zero_not_mem_cline (s : List UInt8) : 0 ∉ cline s := fun h => by
  simpa using List.mem_takeWhile_imp h

/-- At the end of the line, `parsecmd`'s check for leftovers passes exactly when no token is
left. -/
theorem peek_eq_length_iff {s : List UInt8} {pos : Nat} (hpos : pos ≤ (cline s).length) :
    (peek (cline s) pos (cstr "")).2 = (cline s).length ↔ lex (cline s) pos = [] := by
  rw [peek_snd]
  exact skipWs_eq_length_iff (zero_not_mem_cline s) hpos

/-- `parsecmd` returns a tree exactly when the line's tokens derive it from `line`. -/
theorem parsecmd_ok_iff (s : List UInt8) (c : Cmd) :
    (∃ m, parsecmd s = .ok (c, m)) ↔ Derives .line (lex (cline s) 0) c := by
  constructor
  · rintro ⟨m, h⟩
    rw [parsecmd, Except.bind_eq_ok_iff] at h
    obtain ⟨r, hr, h⟩ := h
    have hread := (parse_sound_all (cline s)).1 0 r hr
    split_ifs at h with hend
    cases h
    obtain ⟨pre, hl, hd⟩ := hread.read
    rw [(peek_eq_length_iff (hread.bound (Nat.zero_le _))).mp (not_not.mp hend),
      List.append_nil] at hl
    exact hl ▸ hd
  · intro hd
    obtain ⟨r, hr, hv, hpos⟩ := parse_complete hd (List.append_nil _).symm (Ends.nil _)
    rw [Sym.parse_line] at hr
    have hend := (peek_eq_length_iff
      (((parse_sound_all (cline s)).1 0 r hr).bound (Nat.zero_le _))).mpr hpos
    refine ⟨nulterminate c (cline s ++ [0]), ?_⟩
    rw [parsecmd, hr, Except.ok_bind, if_neg (not_not.mpr hend), hv]
    rfl

/-- After `nulterminate`, every word of the tree `parsecmd` returns reads as a C string that
is exactly the word's bytes of the line. -/
theorem parsecmd_words {s : List UInt8} {c : Cmd} {m : List UInt8}
    (h : parsecmd s = .ok (c, m)) :
    ∀ w ∈ c.words, cstring m w.1 = ((cline s).drop w.1).take (w.2 - w.1) := by
  have hd := (parsecmd_ok_iff s c).mp ⟨m, h⟩
  have hm : m = nulterminate c (cline s ++ [0]) := by
    rw [parsecmd, Except.bind_eq_ok_iff] at h
    obtain ⟨r, hr, h⟩ := h
    split_ifs at h
    cases h
    rfl
  subst hm
  intro w hw
  obtain ⟨t, ht, hk, rfl⟩ := hd.wordsOf w hw
  have hword := word_of_mem_lex ht hk
  -- no word of the tree ends inside `t`
  have hfree : ∀ i, t.q ≤ i → i < t.eq → ¬∃ w' ∈ c.words, w'.2 = i := by
    rintro i h1 h2 ⟨w', hw', rfl⟩
    obtain ⟨t', ht', hk', rfl⟩ := hd.wordsOf w' hw'
    rcases lex_words_apart ht ht' hk hk' with h | h <;> dsimp only at h1 h2 <;> omega
  refine cstring_eq_of_agree hword.lt.le hword.le_length ?_ ?_ fun i h1 h2 => ?_
  · rw [nulterminate_eq, length_foldl_set, List.length_append, List.length_singleton]
    exact Nat.lt_succ_of_le hword.le_length
  · rw [nulterminate_eq, getD_foldl_set, if_pos ⟨_, hw, rfl⟩]
  · have hi : i < (cline s).length := by
      have := hword.le_length
      omega
    rw [nulterminate_eq, getD_foldl_set, if_neg (hfree i h1 h2), List.getD_append _ _ _ _ hi]
    refine ⟨rfl, fun h0 => zero_not_mem_cline s ?_⟩
    rw [List.getD_eq_getElem _ _ hi] at h0
    exact h0 ▸ List.getElem_mem hi

/-- The shell's parser reads exactly its grammar: `parsecmd` returns a tree, rather than
calling `panic`, exactly when the tokens of the line derive that tree from `line`, and after
`nulterminate` each `argv[i]` and each file of the tree is, as a C string, its word of the
line. -/
theorem parsecmd_derives (s : List UInt8) :
    (∀ c, (∃ m, parsecmd s = .ok (c, m)) ↔ Derives .line (lex (cline s) 0) c) ∧
      ∀ c m, parsecmd s = .ok (c, m) →
        ∀ w ∈ c.words, cstring m w.1 = ((cline s).drop w.1).take (w.2 - w.1) :=
  ⟨parsecmd_ok_iff s, fun _ _ h => parsecmd_words h⟩

end Parsecmd

end Sh

end Xv6
