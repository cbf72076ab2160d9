import Xv6.Lib.Fallible

/-!
# The shell's parser

`gettoken`, `peek`, `parsecmd` and the recursive procedures under it, of `user/src/sh.rs`.  A
cursor into the buffer is the list of bytes from it up to the terminating `NUL`, so `*s` at
the end of the list is `0`.  Nodes come from `malloc`, whose failure is not modelled.

* `tokens` — the text as a sequence of tokens.
* `gettoken_of_tokens`, `peek_eq` — what the two functions of the scanner do, in terms of it.
-/

namespace Xv6.User.Sh

/-- A position in the buffer: the bytes from there to the `NUL`. -/
abbrev Cursor : Type := List UInt8

/-- The byte of a character, `b'c'`. -/
def b (c : Char) : UInt8 := UInt8.ofNat c.toNat

def WHITESPACE : List UInt8 := [b ' ', b '\t', b '\r', b '\n', 0x0b]

def SYMBOLS : List UInt8 := [b '<', b '|', b '>', b '&', b ';', b '(', b ')']

/-- Words of a command, the terminating zero included. -/
abbrev MAXARGS : ℕ := 10

abbrev O_RDONLY : ℕ := 0

abbrev O_WRONLY : ℕ := 1

abbrev O_CREATE : ℕ := 0x200

/-- `is_in`. -/
def is_in (c : UInt8) (set : List UInt8) : Bool := set.contains c

/-- `*s`. -/
def deref (s : Cursor) : UInt8 := s.headD 0

/-- `while s < es && is_in(*s, WHITESPACE)`. -/
def skip (s : Cursor) : Cursor := s.dropWhile fun c => is_in c WHITESPACE

/-- What `gettoken` returns, stores in `q` and `eq`, and leaves in `ps`. -/
structure Scanned where
  ret : UInt8
  q : Cursor
  eq : Cursor
  ps : Cursor

/-- The token at the start of a text that is not whitespace: its code, and what follows it. -/
def scan (s : Cursor) : UInt8 × Cursor :=
  if deref s = 0 then (0, s)
  else if is_in (deref s) [b '|', b '(', b ')', b ';', b '&', b '<'] then (deref s, s.tail)
  else if deref s = b '>' then
    if deref s.tail = b '>' then (b '+', s.tail.tail) else (b '>', s.tail)
  else (b 'a', s.dropWhile fun c => !is_in c WHITESPACE && !is_in c SYMBOLS)

/-- `gettoken`. -/
def gettoken (ps : Cursor) : Scanned :=
  ⟨(scan (skip ps)).1, skip ps, (scan (skip ps)).2, skip (scan (skip ps)).2⟩

/-- The bytes from `q` up to `eq`. -/
def text (q eq : Cursor) : List UInt8 := q.take (q.length - eq.length)

/-- `peek`: the answer, and the cursor it leaves in `ps`. -/
def peek (ps : Cursor) (toks : List UInt8) : Bool × Cursor :=
  (deref (skip ps) != 0 && is_in (deref (skip ps)) toks, skip ps)

/-! ## Commands -/

/-- The nodes of `sh.rs`. -/
inductive Cmd where
  | exec (argv : List (List UInt8))
  | redir (cmd : Cmd) (file : List UInt8) (mode : ℕ) (fd : ℕ)
  | pipe (left right : Cmd)
  | list (left right : Cmd)
  | back (cmd : Cmd)
  deriving DecidableEq, Repr

/-- `(*ecmd).argv[argc] = q`, where `ecmd` is the node below the redirections. -/
def Cmd.push (w : List UInt8) : Cmd → Cmd
  | .exec argv => .exec (argv ++ [w])
  | .redir cmd file mode fd => .redir (cmd.push w) file mode fd
  | cmd => cmd

/-- Why no tree is returned: a call of `panic`, or the bound on the recursion of the model. -/
inductive Fault where
  | panic (msg : String)
  | fuel
  deriving DecidableEq, Repr

/-- The node that `parseredirs` makes for a token. -/
def redirect (tok : UInt8) (cmd : Cmd) (file : List UInt8) : Cmd :=
  if tok = b '<' then .redir cmd file O_RDONLY 0
  else if tok = b '>' then .redir cmd file (O_WRONLY ||| O_CREATE) 1
  else if tok = b '+' then .redir cmd file (O_WRONLY ||| O_CREATE) 1
  else cmd

/-- `parseredirs`. -/
def parseredirs : ℕ → Cmd → Cursor → Except Fault (Cmd × Cursor)
  | 0, _, _ => .error .fuel
  | n + 1, cmd, s =>
    if (peek s [b '<', b '>']).1 then
      let tok := gettoken (peek s [b '<', b '>']).2
      let file := gettoken tok.ps
      if file.ret ≠ b 'a' then .error (.panic "missing file for redirection")
      else parseredirs n (redirect tok.ret cmd (text file.q file.eq)) file.ps
    else .ok (cmd, (peek s [b '<', b '>']).2)

/-- The loop of `parseline` over `&`. -/
def parsebacks : ℕ → Cmd → Cursor → Except Fault (Cmd × Cursor)
  | 0, _, _ => .error .fuel
  | n + 1, cmd, s =>
    if (peek s [b '&']).1 then parsebacks n (.back cmd) (gettoken (peek s [b '&']).2).ps
    else .ok (cmd, (peek s [b '&']).2)

/-- The loop of `parseexec` over the words. -/
def parseargs : ℕ → ℕ → Cmd → Cursor → Except Fault (Cmd × Cursor)
  | 0, _, _, _ => .error .fuel
  | n + 1, argc, cmd, s =>
    if (peek s [b '|', b ')', b '&', b ';']).1
      then .ok (cmd, (peek s [b '|', b ')', b '&', b ';']).2)
    else
      let tok := gettoken (peek s [b '|', b ')', b '&', b ';']).2
      if tok.ret = 0 then .ok (cmd, tok.ps)
      else if tok.ret ≠ b 'a' then .error (.panic "syntax")
      else if MAXARGS ≤ argc + 1 then .error (.panic "too many args")
      else do
        let r ← parseredirs n (cmd.push (text tok.q tok.eq)) tok.ps
        parseargs n (argc + 1) r.1 r.2

mutual

/-- `parseline`. -/
def parseline : ℕ → Cursor → Except Fault (Cmd × Cursor)
  | 0, _ => .error .fuel
  | n + 1, s => do
    let r ← parsepipe n s
    let r ← parsebacks n r.1 r.2
    if (peek r.2 [b ';']).1 then
      let right ← parseline n (gettoken (peek r.2 [b ';']).2).ps
      pure (.list r.1 right.1, right.2)
    else pure (r.1, (peek r.2 [b ';']).2)

/-- `parsepipe`. -/
def parsepipe : ℕ → Cursor → Except Fault (Cmd × Cursor)
  | 0, _ => .error .fuel
  | n + 1, s => do
    let r ← parseexec n s
    if (peek r.2 [b '|']).1 then
      let right ← parsepipe n (gettoken (peek r.2 [b '|']).2).ps
      pure (.pipe r.1 right.1, right.2)
    else pure (r.1, (peek r.2 [b '|']).2)

/-- `parseblock`. -/
def parseblock : ℕ → Cursor → Except Fault (Cmd × Cursor)
  | 0, _ => .error .fuel
  | n + 1, s =>
    if (peek s [b '(']).1 then do
      let r ← parseline n (gettoken (peek s [b '(']).2).ps
      if (peek r.2 [b ')']).1 then parseredirs n r.1 (gettoken (peek r.2 [b ')']).2).ps
      else .error (.panic "syntax - missing )")
    else .error (.panic "parseblock")

/-- `parseexec`. -/
def parseexec : ℕ → Cursor → Except Fault (Cmd × Cursor)
  | 0, _ => .error .fuel
  | n + 1, s =>
    if (peek s [b '(']).1 then parseblock n (peek s [b '(']).2
    else do
      let r ← parseredirs n (.exec []) (peek s [b '(']).2
      parseargs n 0 r.1 r.2

end

/-- The text of a buffer, up to its first `NUL`. -/
def line (buf : List UInt8) : Cursor := buf.takeWhile (· ≠ 0)

theorem zero_notMem_line (buf : List UInt8) : (0 : UInt8) ∉ line buf := by
  intro hmem
  have hne := List.mem_takeWhile_imp hmem
  simp at hne

/-- `parsecmd`; a word of the tree stands for the string that `nulterminate` cuts off. -/
def parsecmd (fuel : ℕ) (buf : List UInt8) : Except Fault Cmd := do
  let r ← parseline fuel (line buf)
  if (peek r.2 []).2 ≠ [] then .error (.panic "syntax") else pure r.1

/-! ## Tokens -/

inductive Dir where
  | input
  | output
  | append
  deriving DecidableEq, Repr

inductive Tok where
  | bar
  | lparen
  | rparen
  | semi
  | amp
  | redir (d : Dir)
  | word (w : List UInt8)
  deriving DecidableEq, Repr

/-- A byte that is part of a word. -/
def inWord (c : UInt8) : Bool := !is_in c WHITESPACE && !is_in c SYMBOLS

/-- The symbols of one byte that are not the start of a longer one. -/
def symbol (c : UInt8) : Option Tok :=
  if c = b '|' then some .bar
  else if c = b '(' then some .lparen
  else if c = b ')' then some .rparen
  else if c = b ';' then some .semi
  else if c = b '&' then some .amp
  else if c = b '<' then some (.redir .input)
  else none

/-- The first token of a text, and the text after it. -/
def lex (s : List UInt8) : Option (Tok × List UInt8) :=
  match s.dropWhile fun c => is_in c WHITESPACE with
  | [] => none
  | c :: r =>
    if c = 0 then none
    else if c = b '>' then
      if r.head? = some (b '>') then some (.redir .append, r.tail) else some (.redir .output, r)
    else
      match symbol c with
      | some t => some (t, r)
      | none => some (.word ((c :: r).takeWhile inWord), (c :: r).dropWhile inWord)

variable {s e : Cursor} {t : Tok} {c : UInt8} {r : List UInt8}

/-- What `skip` stops at is not whitespace. -/
theorem not_ws_of_skip (h : skip s = c :: r) : is_in c WHITESPACE = false := by
  have hne : s.dropWhile (fun c => is_in c WHITESPACE) ≠ [] := by
    intro hnil
    rw [skip, hnil] at h
    cases h
  have hhead := List.head_dropWhile_not (fun c => is_in c WHITESPACE) hne
  have hc : (s.dropWhile fun c => is_in c WHITESPACE).head hne = c := by
    simp only [skip] at h
    simp only [h, List.head_cons]
  rw [hc] at hhead
  simpa using hhead

theorem skip_suffix (s : Cursor) : skip s <:+ s := List.dropWhile_suffix _

theorem skip_skip (s : Cursor) : skip (skip s) = skip s := List.dropWhile_idempotent _ _

theorem lex_eq (s : Cursor) : lex s = match skip s with
    | [] => none
    | c :: r =>
      if c = 0 then none
      else if c = b '>' then
        if r.head? = some (b '>') then some (.redir .append, r.tail) else some (.redir .output, r)
      else
        match symbol c with
        | some t => some (t, r)
        | none => some (.word ((c :: r).takeWhile inWord), (c :: r).dropWhile inWord) := rfl

theorem lex_skip (s : Cursor) : lex (skip s) = lex s := by
  rw [lex_eq, lex_eq, skip_skip]

/-- The codes that `gettoken` returns. -/
def Tok.code : Tok → UInt8
  | .bar => b '|'
  | .lparen => b '('
  | .rparen => b ')'
  | .semi => b ';'
  | .amp => b '&'
  | .redir .input => b '<'
  | .redir .output => b '>'
  | .redir .append => b '+'
  | .word _ => b 'a'

/-- The byte that tells `peek` what a token is; that of a word is in none of its sets. -/
def Tok.lead : Tok → UInt8
  | .redir .append => b '>'
  | t => t.code

/-- A byte that is no symbol, no whitespace and no `>` starts a word. -/
theorem inWord_of (hws : is_in c WHITESPACE = false) (hgt : c ≠ b '>') (hsym : symbol c = none) :
    inWord c = true := by
  unfold symbol at hsym
  split_ifs at hsym with h₁ h₂ h₃ h₄ h₅ h₆
  have hout : is_in c SYMBOLS = false := by simp [is_in, SYMBOLS, h₁, h₂, h₃, h₄, h₅, h₆, hgt]
  rw [inWord, hws, hout]
  rfl

theorem symbol_eq_some (h : symbol c = some t) :
    is_in c [b '|', b '(', b ')', b ';', b '&', b '<'] = true ∧ t.code = c ∧ t.lead = c ∧ ∀ w,
      t ≠ .word w := by
  unfold symbol at h
  split_ifs at h with h₁ h₂ h₃ h₄ h₅ h₆
  all_goals
    cases h
    subst c
    exact ⟨by decide, rfl, rfl, fun w hw => (nomatch hw)⟩

theorem symbol_eq_none (h : symbol c = none) :
    is_in c [b '|', b '(', b ')', b ';', b '&', b '<'] = false := by
  unfold symbol at h
  split_ifs at h with h₁ h₂ h₃ h₄ h₅ h₆
  simp [is_in, h₁, h₂, h₃, h₄, h₅, h₆]

theorem text_append (w e : List UInt8) : text (w ++ e) e = w := by
  rw [text, List.length_append, Nat.add_sub_cancel, List.take_left']
  rfl

theorem deref_cons (c : UInt8) (r : List UInt8) : deref (c :: r) = c := rfl

theorem scan_gt (r : List UInt8) :
    scan (b '>' :: r) = if deref r = b '>' then (b '+', r.tail) else (b '>', r) := by
  rw [scan, deref_cons, if_neg (by decide), if_neg (by decide), if_pos rfl]
  rfl

/-- What the first token of a text says about the scan of it. -/
structure Scans (s : Cursor) (t : Tok) (e : Cursor) : Prop where
  scan : scan (skip s) = (t.code, e)
  text : ∀ w, t = .word w → text (skip s) e = w
  lead : ∀ set : List UInt8, set.all (is_in · SYMBOLS) = true → is_in (deref (skip s)) set =
    is_in t.lead set
  deref : deref (skip s) ≠ 0
  suffix : e <:+ s
  shorter : e.length < s.length

theorem scans_of_cons (hq : skip s = c :: r) (he : e <:+ r) : e <:+ s ∧ e.length < s.length := by
  have hs : c :: r <:+ s := hq ▸ skip_suffix s
  have hlen := hs.length_le
  have hle := he.length_le
  rw [List.length_cons] at hlen
  exact ⟨he.trans ((List.suffix_cons c r).trans hs), by omega⟩

theorem scans_of_lex (h : lex s = some (t, e)) : Scans s t e := by
  rw [lex_eq] at h
  cases hq : skip s with
  | nil =>
    rw [hq] at h
    cases h
  | cons c r =>
    have hws := not_ws_of_skip hq
    rw [hq] at h
    simp only at h
    split_ifs at h with h0 hgt hgg
    · -- `>>`
      obtain ⟨rfl, rfl⟩ := Prod.mk.inj (Option.some.inj h)
      have hd : User.Sh.deref r = b '>' := by
        rw [User.Sh.deref, List.headD_eq_head?_getD, hgg]
        rfl
      obtain ⟨hsuf, hlt⟩ := scans_of_cons hq (List.tail_suffix r)
      refine ⟨?_, fun w hw => (nomatch hw), fun set _ => ?_, ?_, hsuf, hlt⟩
      · rw [hq, hgt, scan_gt, if_pos hd]
        rfl
      · rw [hq, hgt]
        rfl
      · rw [hq]
        exact h0
    · -- `>`
      obtain ⟨rfl, rfl⟩ := Prod.mk.inj (Option.some.inj h)
      have hd : User.Sh.deref r ≠ b '>' := by
        cases r with
        | nil => decide
        | cons d r => exact fun hd => hgg (congrArg some hd)
      obtain ⟨hsuf, hlt⟩ := scans_of_cons hq (List.suffix_refl r)
      refine ⟨?_, fun w hw => (nomatch hw), fun set _ => ?_, ?_, hsuf, hlt⟩
      · rw [hq, hgt, scan_gt, if_neg hd]
        rfl
      · rw [hq, hgt]
        rfl
      · rw [hq]
        exact h0
    · cases hsym : symbol c with
      | some u =>
        rw [hsym] at h
        obtain ⟨rfl, rfl⟩ := Prod.mk.inj (Option.some.inj h)
        obtain ⟨hin, hcode, hlead, hword⟩ := symbol_eq_some hsym
        obtain ⟨hsuf, hlt⟩ := scans_of_cons hq (List.suffix_refl r)
        refine ⟨?_, fun w hw => absurd hw (hword w), fun set _ => ?_, ?_, hsuf, hlt⟩
        · rw [hq, User.Sh.scan, deref_cons, if_neg h0, if_pos hin, hcode, List.tail_cons]
        · rw [hq, hlead]
          rfl
        · rw [hq]
          exact h0
      | none =>
        -- a word: its first byte is in no set of symbols
        rw [hsym] at h
        obtain ⟨rfl, rfl⟩ := Prod.mk.inj (Option.some.inj h)
        have hin := inWord_of hws hgt hsym
        have hdrop : (c :: r).dropWhile inWord = r.dropWhile inWord :=
          List.dropWhile_cons_of_pos hin
        obtain ⟨hsuf, hlt⟩ := scans_of_cons hq (List.dropWhile_suffix inWord)
        refine ⟨?_, fun w hw => ?_, fun set hset => ?_,
          ?_, by rw [hdrop]; exact hsuf, by rw [hdrop]; exact hlt⟩
        · rw [hq, User.Sh.scan, deref_cons, if_neg h0, if_neg (by rw [symbol_eq_none hsym]; decide),
            if_neg hgt]
          rfl
        · have hsplit := text_append ((c :: r).takeWhile inWord) ((c :: r).dropWhile inWord)
          rw [List.takeWhile_append_dropWhile] at hsplit
          rw [hq, hsplit]
          exact Tok.word.inj hw
        · have hout : is_in c SYMBOLS = false := by
            rw [inWord, hws] at hin
            simpa using hin
          have hnot : ∀ d, is_in d SYMBOLS = false → is_in d set = false := by
            intro d hd
            rw [Bool.eq_false_iff] at hd ⊢
            exact fun hin => hd (List.all_eq_true.1 hset d (List.contains_iff_mem.1 hin))
          rw [hq]
          exact (hnot c hout).trans (hnot (b 'a') (by decide)).symm
        · rw [hq]
          exact h0

theorem deref_of_lex_none (h : lex s = none) : deref (skip s) = 0 := by
  rw [lex_eq] at h
  cases hq : skip s with
  | nil => rfl
  | cons c r =>
    rw [hq] at h
    simp only at h
    split_ifs at h with h0 hgt hgg
    · exact h0
    · cases hsym : symbol c with
      | some u =>
        rw [hsym] at h
        cases h
      | none =>
        rw [hsym] at h
        cases h

/-- The tokens of a text. -/
def tokens (s : List UInt8) : List Tok :=
  match _h : lex s with
  | none => []
  | some (t, e) => t :: tokens e
termination_by s.length
decreasing_by exact (scans_of_lex _h).shorter

theorem tokens_none (h : lex s = none) : tokens s = [] := by
  rw [tokens]
  split
  · rfl
  · next heq => rw [h] at heq; cases heq

theorem tokens_some (h : lex s = some (t, e)) : tokens s = t :: tokens e := by
  rw [tokens]
  split
  · next heq => rw [h] at heq; cases heq
  · next heq =>
    rw [h] at heq
    cases heq
    rfl

theorem tokens_skip (s : Cursor) : tokens (skip s) = tokens s := by
  cases h : lex s with
  | none => rw [tokens_none h, tokens_none ((lex_skip s).trans h)]
  | some p => rw [tokens_some (t := p.1) (e := p.2) h,
    tokens_some (t := p.1) (e := p.2) ((lex_skip s).trans h)]

/-! ## The scanner -/

variable {ts : List Tok}

theorem gettoken_of_tokens (h : tokens s = t :: ts) : (gettoken s).ret = t.code ∧
    tokens (gettoken s).ps = ts ∧ (∀ w, t = .word w → text (gettoken s).q (gettoken s).eq = w) ∧
    (gettoken s).ps <:+ s ∧ (gettoken s).ps.length < s.length := by
  cases hl : lex s with
  | none =>
    rw [tokens_none hl] at h
    cases h
  | some p =>
    obtain ⟨u, e⟩ := p
    rw [tokens_some hl] at h
    obtain ⟨rfl, rfl⟩ := List.cons.inj h
    have hs := scans_of_lex hl
    have heq : gettoken s = ⟨u.code, skip s, e, skip e⟩ := by rw [gettoken, hs.scan]
    have hlen := (skip_suffix e).length_le
    rw [heq]
    exact ⟨rfl, tokens_skip e, hs.text, (skip_suffix e).trans hs.suffix,
      lt_of_le_of_lt hlen hs.shorter⟩

/-- `gettoken` at the end of the text. -/
theorem gettoken_of_nil (h : tokens s = []) :
    (gettoken s).ret = 0 ∧ tokens (gettoken s).ps = [] ∧ (gettoken s).ps <:+ s := by
  cases hl : lex s with
  | some p =>
    rw [tokens_some (t := p.1) (e := p.2) hl] at h
    cases h
  | none =>
    have heq : gettoken s = ⟨0, skip s, skip s, skip (skip s)⟩ := by
      rw [gettoken, scan, if_pos (deref_of_lex_none hl)]
    rw [heq, skip_skip]
    exact ⟨rfl, by rw [tokens_skip, h], skip_suffix s⟩

/-- The next token is one of those that a set of `peek` stands for. -/
def starts (set : List UInt8) (ts : List Tok) : Bool := ts.head?.any fun t => is_in t.lead set

theorem peek_eq (s : Cursor) (set : List UInt8) (hset : set.all (is_in · SYMBOLS) = true) :
    peek s set = (starts set (tokens s), skip s) := by
  rw [peek]
  refine congrArg (·, skip s) ?_
  cases hl : lex s with
  | none =>
    rw [tokens_none hl, deref_of_lex_none hl]
    rfl
  | some p =>
    have hs := scans_of_lex (t := p.1) (e := p.2) hl
    rw [tokens_some (t := p.1) (e := p.2) hl, hs.lead set hset, bne_iff_ne.2 hs.deref,
      Bool.true_and]
    rfl

end Xv6.User.Sh
