import Xv6.User.Sh

/-!
# The grammar of the shell

`line ::= pipe '&'* [';' line]`, `pipe ::= exec ['|' pipe]`,
`exec ::= '(' line ')' redir* | redir* (word redir*)*` and `redir ::= ('<' | '>' | '>>') word`,
with at most nine words in an `exec`.

* `run_sound` — what a procedure accepts is derivable, and it always comes to an end.
* `run_complete` — a derivable text that is followed by the right token is accepted.
* `parsecmd_iff` — `parsecmd` returns a tree exactly for a derivable text, and it is the tree
  of the derivation.
-/

namespace Xv6.User.Sh

/-- A redirection: its direction and its file. -/
abbrev Redir : Type := Dir × List UInt8

/-- The node of a redirection. -/
def wrap (c : Cmd) : Redir → Cmd
  | (.input, w) => .redir c w O_RDONLY 0
  | (.output, w) => .redir c w (O_WRONLY ||| O_CREATE) 1
  | (.append, w) => .redir c w (O_WRONLY ||| O_CREATE) 1

/-- Redirections around a command, the first of them innermost. -/
def wrapAll (rs : List Redir) (c : Cmd) : Cmd := rs.foldl wrap c

def redirToks (rs : List Redir) : List Tok := rs.flatMap fun r => [.redir r.1, .word r.2]

/-- A word and the redirections after it. -/
abbrev Group : Type := List UInt8 × List Redir

def groupToks (gs : List Group) : List Tok := gs.flatMap fun g => .word g.1 :: redirToks g.2

inductive Sym where
  | line
  | pipe
  | exec

/-- The grammar, with the tree of a derivation. -/
inductive Derives : Sym → List Tok → Cmd → Prop
  | last {ts c} (n : ℕ) : Derives .pipe ts c → Derives .line (ts ++ List.replicate n .amp)
    (Cmd.back^[n] c)
  | seq {ts us c d} (n : ℕ) : Derives .pipe ts c → Derives .line us d →
      Derives .line (ts ++ (List.replicate n .amp ++ .semi :: us)) (.list (Cmd.back^[n] c) d)
  | one {ts c} : Derives .exec ts c → Derives .pipe ts c
  | bar {ts us c d} : Derives .exec ts c → Derives .pipe us d →
    Derives .pipe (ts ++ .bar :: us) (.pipe c d)
  | block {ts c} (rs : List Redir) : Derives .line ts c →
      Derives .exec (.lparen :: (ts ++ .rparen :: redirToks rs)) (wrapAll rs c)
  | simple (rs : List Redir) (gs : List Group) : gs.length ≤ 9 →
      Derives .exec (redirToks rs ++ groupToks gs)
        (wrapAll (rs ++ gs.flatMap Prod.snd) (.exec (gs.map Prod.fst)))

variable {s s' : Cursor} {t : Tok} {ts us rest : List Tok} {c : Cmd} {n k argc : ℕ}
  {rs : List Redir} {gs : List Group}
  {ws : List (List UInt8)} {sym : Sym}

theorem wrapAll_append (rs rs' : List Redir) (c : Cmd) :
    wrapAll (rs ++ rs') c = wrapAll rs' (wrapAll rs c) :=
  List.foldl_append

theorem redirect_code (d : Dir) (c : Cmd) (w : List UInt8) :
    redirect (Tok.redir d).code c w = wrap c (d, w) := by
  cases d <;> rfl

/-- A word is stored below the redirections. -/
theorem push_wrapAll (rs : List Redir) (c : Cmd) (w : List UInt8) :
    (wrapAll rs c).push w = wrapAll rs (c.push w) := by
  induction rs generalizing c with
  | nil => rfl
  | cons r rs ih =>
    have hwrap : (wrap c r).push w = wrap (c.push w) r := by
      obtain ⟨d, f⟩ := r
      cases d <;> rfl
    exact (ih (wrap c r)).trans (congrArg (wrapAll rs) hwrap)

/-! ## What `peek` looks for -/

theorem singleton_symbols {t : Tok} (ht : t ∈ [.bar, .lparen, .rparen, .semi, .amp]) :
    [t.lead].all (is_in · SYMBOLS) = true := by
  simp only [List.mem_cons, List.not_mem_nil, or_false] at ht
  rcases ht with rfl | rfl | rfl | rfl | rfl <;> decide

theorem eq_of_lead {u : Tok} (hu : u ∈ [.bar, .lparen, .rparen, .semi, .amp])
    (h : is_in t.lead [u.lead] = true) :
    t = u := by
  have hlead : t.lead = u.lead := by simpa [is_in] using h
  simp only [List.mem_cons, List.not_mem_nil, or_false] at hu
  rcases hu with rfl | rfl | rfl | rfl | rfl
  all_goals
    cases t with
    | redir d => cases d <;> exact absurd hlead (by decide)
    | word w => exact absurd (show b 'a' = _ from hlead) (by decide)
    | _ => first | rfl | exact absurd hlead (by decide)

theorem starts_single {u : Tok} (hu : u ∈ [.bar, .lparen, .rparen, .semi, .amp])
    (h : starts [u.lead] ts = true) :
    ∃ us, ts = u :: us := by
  cases ts with
  | nil => cases h
  | cons t us => exact ⟨us, by rw [eq_of_lead hu h]⟩

theorem starts_redir (h : starts [b '<', b '>'] ts = true) : ∃ d us, ts = .redir d :: us := by
  cases ts with
  | nil => cases h
  | cons t us =>
    cases t with
    | redir d => exact ⟨d, us, rfl⟩
    | word w => exact absurd (show is_in (b 'a') _ = true from h) (by decide)
    | bar => exact absurd (show is_in (b '|') _ = true from h) (by decide)
    | lparen => exact absurd (show is_in (b '(') _ = true from h) (by decide)
    | rparen => exact absurd (show is_in (b ')') _ = true from h) (by decide)
    | semi => exact absurd (show is_in (b ';') _ = true from h) (by decide)
    | amp => exact absurd (show is_in (b '&') _ = true from h) (by decide)

theorem word_of_code (h : t.code = b 'a') : ∃ w, t = .word w := by
  cases t with
  | word w => exact ⟨w, rfl⟩
  | redir d => cases d <;> exact absurd h (by decide)
  | _ => exact absurd h (by decide)

/-- What may stand after a symbol of the grammar. -/
def Sym.follow : Sym → List Tok
  | .line => [.rparen]
  | .pipe => [.rparen, .amp, .semi]
  | .exec => [.rparen, .amp, .semi, .bar]

def Follows (sym : Sym) (rest : List Tok) : Prop := ∀ t ∈ rest.head?, t ∈ sym.follow

/-- `peek` says no before what may follow, for a set with none of it. -/
theorem Follows.starts (h : Follows sym rest) {set : List UInt8} (hset : ∀ t ∈ sym.follow,
    is_in t.lead set = false) :
    starts set rest = false := by
  cases rest with
  | nil => rfl
  | cons t us => exact hset t (h t rfl)

theorem starts_groupToks (hrest : Follows .exec rest) {set : List UInt8}
    (hset : is_in (b 'a') set = false)
    (hfol : ∀ t ∈ Sym.exec.follow, is_in t.lead set = false) :
      starts set (groupToks gs ++ rest) = false := by
  cases gs with
  | nil => exact hrest.starts hfol
  | cons g gs => exact hset

/-! ## The loops -/

theorem peek_redirs (s : Cursor) :
    peek s [b '<', b '>'] = (starts [b '<', b '>'] (tokens s), skip s) :=
  peek_eq s _ (by decide)

/-- Redirections that are there are taken. -/
theorem parseredirs_complete (h : tokens s = redirToks rs ++ rest)
    (hrest : starts [b '<', b '>'] rest = false)
    (hn : s.length < n) :
      ∃ s', parseredirs n c s = .ok (wrapAll rs c, s') ∧ tokens s' = rest ∧ s' <:+ s := by
  induction rs generalizing n c s with
  | nil =>
    obtain ⟨n, rfl⟩ := Nat.exists_eq_succ_of_ne_zero (Nat.ne_zero_of_lt hn)
    replace h : tokens s = rest := h
    refine ⟨skip s, ?_, by rw [tokens_skip, h], skip_suffix s⟩
    rw [parseredirs, peek_redirs, h, hrest]
    rfl
  | cons r rs ih =>
    obtain ⟨n, rfl⟩ := Nat.exists_eq_succ_of_ne_zero (Nat.ne_zero_of_lt hn)
    obtain ⟨d, w⟩ := r
    have hs : tokens (skip s) = .redir d :: .word w :: (redirToks rs ++ rest) :=
      (tokens_skip s).trans h
    obtain ⟨htok, hnext, -, hsuf, hlt⟩ := gettoken_of_tokens hs
    obtain ⟨hfile, hleft, htext, hsuf', hlt'⟩ := gettoken_of_tokens hnext
    have hlen := (skip_suffix s).length_le
    obtain ⟨s', hrun, hs', hsuf''⟩ := ih (c := wrap c (d, w)) (n := n) hleft (by omega)
    refine ⟨s', ?_, hs', hsuf''.trans (hsuf'.trans (hsuf.trans (skip_suffix s)))⟩
    have hstarts : starts [b '<', b '>'] (tokens s) = true := by
      rw [h]
      cases d <;> rfl
    rw [parseredirs, peek_redirs, hstarts, if_pos rfl]
    simp only [htok, htext w rfl, redirect_code]
    exact (if_neg (not_not.2 hfile)).trans hrun

/-- `parseredirs` takes all the redirections, or panics. -/
theorem parseredirs_sound (hn : s.length < n) : (∃ msg, parseredirs n c s = .error (.panic msg)) ∨
    ∃ rs s', parseredirs n c s = .ok (wrapAll rs c, s') ∧ tokens s = redirToks rs ++ tokens s' ∧
      s' <:+ s := by
  induction n generalizing c s with
  | zero => exact absurd hn (Nat.not_lt_zero _)
  | succ n ih =>
    rw [parseredirs, peek_redirs]
    split_ifs with hmore
    · obtain ⟨d, us, hd⟩ := starts_redir hmore
      have hs : tokens (skip s) = .redir d :: us := (tokens_skip s).trans hd
      obtain ⟨htok, hnext, -, hsuf, hlt⟩ := gettoken_of_tokens hs
      have hlen := (skip_suffix s).length_le
      simp only
      split_ifs with hfile
      · exact .inl ⟨_, rfl⟩
      · cases us with
        | nil => exact absurd ((gettoken_of_nil hnext).1.symm.trans (not_not.1 hfile)) (by decide)
        | cons t us =>
          obtain ⟨hret, hleft, htext, hsuf', hlt'⟩ := gettoken_of_tokens hnext
          obtain ⟨w, rfl⟩ := word_of_code (hret.symm.trans (not_not.1 hfile))
          rw [htok, htext w rfl, redirect_code]
          rcases ih (c := wrap c (d, w)) (s := (gettoken (gettoken (skip s)).ps).ps) (by omega) with
            hpanic | ⟨rs, s', hrun, hs', hsuf''⟩
          · exact .inl hpanic
          · refine .inr ⟨(d, w) :: rs, s', hrun, ?_,
              hsuf''.trans (hsuf'.trans (hsuf.trans (skip_suffix s)))⟩
            rw [hd, ← hleft, hs']
            rfl
    · exact .inr ⟨[], skip s, rfl, (tokens_skip s).symm, skip_suffix s⟩

theorem peek_single (s : Cursor) {u : Tok} (hu : u ∈ [.bar, .lparen, .rparen, .semi, .amp]) :
    peek s [u.lead] = (starts [u.lead] (tokens s), skip s) :=
  peek_eq s _ (singleton_symbols hu)

/-- The loop over `&` takes all of them. -/
theorem parsebacks_spec (hn : s.length < n) : ∃ k s', parsebacks n c s = .ok (Cmd.back^[k] c, s') ∧
    tokens s = List.replicate k .amp ++ tokens s' ∧ starts [b '&'] (tokens s') = false ∧
      s' <:+ s := by
  induction n generalizing c s with
  | zero => exact absurd hn (Nat.not_lt_zero _)
  | succ n ih =>
    have hpeek : peek s [b '&'] = (starts [b '&'] (tokens s), skip s) :=
      peek_single s (u := .amp) (by decide)
    rw [parsebacks, hpeek]
    split_ifs with hmore
    · obtain ⟨us, hus⟩ := starts_single (u := .amp) (by decide) hmore
      obtain ⟨-, hnext, -, hsuf, hlt⟩ := gettoken_of_tokens ((tokens_skip s).trans hus)
      have hlen := (skip_suffix s).length_le
      obtain ⟨k, s', hrun, hs', hstop, hsuf'⟩ :=
        ih (c := .back c) (s := (gettoken (skip s)).ps) (by omega)
      refine ⟨k + 1, s', hrun, ?_, hstop, hsuf'.trans (hsuf.trans (skip_suffix s))⟩
      rw [hus, ← hnext, hs']
      rfl
    · refine ⟨0, skip s, rfl, (tokens_skip s).symm, ?_, skip_suffix s⟩
      rw [tokens_skip]
      exact Bool.eq_false_iff.2 hmore

theorem replicate_amp_unique {j : ℕ} (hus : starts [b '&'] us = false)
    (hrest : starts [b '&'] rest = false)
    (h : List.replicate k .amp ++ us = List.replicate j .amp ++ rest) : k = j ∧ us = rest := by
  induction k generalizing j with
  | zero =>
    cases j with
    | zero => exact ⟨rfl, h⟩
    | succ j =>
      replace h : us = .amp :: (List.replicate j .amp ++ rest) := h
      rw [h] at hus
      cases hus
  | succ k ih =>
    cases j with
    | zero =>
      replace h : .amp :: (List.replicate k .amp ++ us) = rest := h
      rw [← h] at hrest
      cases hrest
    | succ j =>
      obtain ⟨hk, he⟩ := ih (List.cons.inj h).2
      exact ⟨congrArg _ hk, he⟩

theorem parsebacks_complete (h : tokens s = List.replicate k .amp ++ rest)
    (hrest : starts [b '&'] rest = false)
    (hn : s.length < n) :
      ∃ s', parsebacks n c s = .ok (Cmd.back^[k] c, s') ∧ tokens s' = rest ∧ s' <:+ s := by
  obtain ⟨j, s', hrun, hs', hstop, hsuf⟩ := parsebacks_spec (c := c) hn
  obtain ⟨rfl, he⟩ := replicate_amp_unique hstop hrest (hs'.symm.trans h)
  exact ⟨s', hrun, he, hsuf⟩

theorem peek_ends (s : Cursor) : peek s [b '|', b ')', b '&', b ';'] =
    (starts [b '|', b ')', b '&', b ';'] (tokens s), skip s) :=
  peek_eq s _ (by decide)

/-- The words that are there are stored, with the redirections between them. -/
theorem parseargs_complete (argc : ℕ) (rs : List Redir) (ws : List (List UInt8))
    (h : tokens s = groupToks gs ++ rest) (hrest : Follows .exec rest)
      (hargc : argc + gs.length ≤ 9) (hn : s.length < n) :
    ∃ s', parseargs n argc (wrapAll rs (.exec ws)) s =
      .ok (wrapAll (rs ++ gs.flatMap Prod.snd) (.exec (ws ++ gs.map Prod.fst)), s') ∧
        tokens s' = rest ∧ s' <:+ s := by
  induction gs generalizing n argc rs ws s with
  | nil =>
    obtain ⟨n, rfl⟩ := Nat.exists_eq_succ_of_ne_zero (Nat.ne_zero_of_lt hn)
    replace h : tokens s = rest := h
    rw [List.flatMap_nil, List.append_nil, List.map_nil, List.append_nil, parseargs, peek_ends, h]
    cases rest with
    | nil =>
      obtain ⟨hret, hend, hsuf⟩ := gettoken_of_nil ((tokens_skip s).trans h)
      refine ⟨_, ?_, hend, hsuf.trans (skip_suffix s)⟩
      exact if_pos hret
    | cons t us =>
      refine ⟨skip s, if_pos ?_, by rw [tokens_skip, h], skip_suffix s⟩
      have ht : t ∈ [.rparen, .amp, .semi, .bar] := hrest t rfl
      simp only [List.mem_cons, List.not_mem_nil, or_false] at ht
      rcases ht with rfl | rfl | rfl | rfl <;> rfl
  | cons g gs ih =>
    obtain ⟨n, rfl⟩ := Nat.exists_eq_succ_of_ne_zero (Nat.ne_zero_of_lt hn)
    obtain ⟨w, rs'⟩ := g
    rw [List.length_cons] at hargc
    have hs : tokens s = .word w :: (redirToks rs' ++ (groupToks gs ++ rest)) := by
      rw [h, ← List.append_assoc]
      rfl
    obtain ⟨hret, hnext, htext, hsuf, hlt⟩ := gettoken_of_tokens ((tokens_skip s).trans hs)
    have hlen := (skip_suffix s).length_le
    obtain ⟨s₁, hredirs, hs₁, hsuf₁⟩ :=
      parseredirs_complete (c := wrapAll rs (Cmd.push w (.exec ws))) (n := n) hnext
      (starts_groupToks hrest (by decide) (by decide)) (by omega)
    have hlen₁ := hsuf₁.length_le
    obtain ⟨s', hrun, hs', hsuf'⟩ := ih (argc + 1) (rs ++ rs') (ws ++ [w]) (n := n) hs₁
      (by omega) (by omega)
    refine ⟨s', ?_, hs', hsuf'.trans (hsuf₁.trans (hsuf.trans (skip_suffix s)))⟩
    have hstarts : starts [b '|', b ')', b '&', b ';'] (tokens s) = false := by
      rw [hs]
      rfl
    have hcode : (gettoken (skip s)).ret = b 'a' := hret
    rw [parseargs]
    simp only [peek_ends, hstarts, hcode, htext w rfl, push_wrapAll]
    rw [if_neg (by decide), if_neg (by decide), if_neg (by decide),
      if_neg (by change ¬10 ≤ argc + 1; omega), Lib.bind_ok hredirs, ← wrapAll_append]
    simpa only [Cmd.push, List.append_assoc, List.flatMap_cons, List.map_cons,
      List.singleton_append] using hrun

/-- The loop over the words ends before a token that is none, or panics. -/
theorem parseargs_sound (argc : ℕ) (rs : List Redir) (ws : List (List UInt8)) (hargc : argc ≤ 9)
    (hn : s.length < n) :
    (∃ msg, parseargs n argc (wrapAll rs (.exec ws)) s = .error (.panic msg)) ∨
    ∃ gs s', parseargs n argc (wrapAll rs (.exec ws)) s =
        .ok (wrapAll (rs ++ gs.flatMap Prod.snd) (.exec (ws ++ gs.map Prod.fst)), s') ∧
      tokens s = groupToks gs ++ tokens s' ∧ argc + gs.length ≤ 9 ∧ s' <:+ s := by
  induction n generalizing argc rs ws s with
  | zero => exact absurd hn (Nat.not_lt_zero _)
  | succ n ih =>
    have hnone : ∀ s', s' <:+ s → tokens s = tokens s' → ∃ (gs : List Group) (s'' : Cursor),
        (Except.ok (wrapAll rs (.exec ws), s') : Except Fault _) =
          .ok (wrapAll (rs ++ gs.flatMap Prod.snd) (.exec (ws ++ gs.map Prod.fst)), s'') ∧
        tokens s = groupToks gs ++ tokens s'' ∧ argc + gs.length ≤ 9 ∧ s'' <:+ s := by
      intro s' hsuf hs'
      refine ⟨[], s', ?_, hs', hargc, hsuf⟩
      rw [List.flatMap_nil, List.append_nil, List.map_nil, List.append_nil]
    rw [parseargs]
    simp only [peek_ends]
    by_cases hend : starts [b '|', b ')', b '&', b ';'] (tokens s) = true
    · rw [if_pos hend]
      exact .inr (hnone _ (skip_suffix s) (tokens_skip s).symm)
    · rw [if_neg hend]
      cases hts : tokens s with
      | nil =>
        obtain ⟨hret, hnil, hsuf⟩ := gettoken_of_nil ((tokens_skip s).trans hts)
        rw [if_pos hret, ← hts]
        exact .inr (hnone _ (hsuf.trans (skip_suffix s)) (hts.trans hnil.symm))
      | cons t us =>
        obtain ⟨hret, hnext, htext, hsuf, hlt⟩ := gettoken_of_tokens ((tokens_skip s).trans hts)
        have hlen := (skip_suffix s).length_le
        split_ifs with hzero hword hmany
        · rw [← hts]
          refine absurd (hret.symm.trans hzero) ?_
          cases t with
          | redir d => cases d <;> decide
          | word w => exact (by decide : b 'a' ≠ 0)
          | _ => decide
        · exact .inl ⟨_, rfl⟩
        · exact .inl ⟨_, rfl⟩
        · obtain ⟨w, rfl⟩ := word_of_code (hret.symm.trans (not_not.1 hword))
          rw [htext w rfl, push_wrapAll]
          rcases parseredirs_sound (c := wrapAll rs (Cmd.push w (.exec ws)))
            (s := (gettoken (skip s)).ps) (n := n)
            (by omega) with ⟨msg, hpanic⟩ | ⟨rs', s₁, hredirs, hs₁, hsuf₁⟩
          · exact .inl ⟨msg, by rw [hpanic]; rfl⟩
          · have hlen₁ := hsuf₁.length_le
            rw [Lib.bind_ok hredirs, ← wrapAll_append]
            rcases ih (argc + 1) (rs ++ rs') (ws ++ [w]) (s := s₁)
              (by change ¬10 ≤ argc + 1 at hmany; omega) (by omega) with hpanic | ⟨gs, s', hrun,
                hs', hle, hsuf'⟩
            · exact .inl hpanic
            · refine .inr ⟨(w, rs') :: gs, s', ?_, ?_, by rw [List.length_cons]; omega,
                hsuf'.trans (hsuf₁.trans (hsuf.trans (skip_suffix s)))⟩
              · simpa only [Cmd.push, List.append_assoc, List.flatMap_cons, List.map_cons,
                  List.singleton_append] using hrun
              · rw [← hnext, hs₁, hs', ← List.append_assoc]
                rfl

/-! ## The procedures -/

/-- The procedure of a symbol. -/
def run : Sym → ℕ → Cursor → Except Fault (Cmd × Cursor)
  | .line => parseline
  | .pipe => parsepipe
  | .exec => parseexec

/-- How deep the calls go on a text before the first byte of it is taken. -/
def Sym.depth : Sym → ℕ
  | .line => 4
  | .pipe => 3
  | .exec => 2

/-- A run ends in a panic, or with the tree of a derivable part of the text. -/
def Sound (sym : Sym) (s : Cursor) (r : Except Fault (Cmd × Cursor)) : Prop :=
  (∃ msg, r = .error (.panic msg)) ∨
    ∃ ts c s', r = .ok (c, s') ∧ Derives sym ts c ∧ tokens s = ts ++ tokens s' ∧ s' <:+ s

theorem peek_bar (s : Cursor) : peek s [b '|'] = (starts [b '|'] (tokens s), skip s) :=
  peek_single s (u := .bar) (by decide)

theorem peek_semi (s : Cursor) : peek s [b ';'] = (starts [b ';'] (tokens s), skip s) :=
  peek_single s (u := .semi) (by decide)

theorem peek_lparen (s : Cursor) : peek s [b '('] = (starts [b '('] (tokens s), skip s) :=
  peek_single s (u := .lparen) (by decide)

theorem peek_rparen (s : Cursor) : peek s [b ')'] = (starts [b ')'] (tokens s), skip s) :=
  peek_single s (u := .rparen) (by decide)

/-- `gettoken` after a `peek` that found its symbol. -/
theorem gettoken_after (h : tokens s = t :: ts) : tokens (gettoken (skip s)).ps = ts ∧
    (gettoken (skip s)).ps <:+ s ∧ (gettoken (skip s)).ps.length < s.length := by
  obtain ⟨-, hnext, -, hsuf, hlt⟩ := gettoken_of_tokens ((tokens_skip s).trans h)
  exact ⟨hnext, hsuf.trans (skip_suffix s), lt_of_lt_of_le hlt (skip_suffix s).length_le⟩

/-- The part of `parseline` after its first pipeline. -/
theorem sound_line {m : ℕ} (hpipe : Sound .pipe s (parsepipe m s))
    (hline : ∀ s' : Cursor, s'.length < s.length → Sound .line s' (parseline m s'))
      (hm : s.length < m) :
    Sound .line s (parseline (m + 1) s) := by
  rw [parseline]
  rcases hpipe with ⟨msg, hp⟩ | ⟨ts, c, s₁, hp, hd, hs, hsuf⟩
  · exact .inl ⟨msg, by rw [hp]; rfl⟩
  have hlen := hsuf.length_le
  obtain ⟨k, s₂, hb, hs₂, -, hsuf₂⟩ := parsebacks_spec (c := c) (s := s₁) (n := m) (by omega)
  rw [Lib.bind_ok hp, Lib.bind_ok hb]
  simp only [peek_semi]
  by_cases hmore : starts [b ';'] (tokens s₂) = true
  · rw [if_pos hmore]
    obtain ⟨us, hus⟩ := starts_single (u := .semi) (by decide) hmore
    obtain ⟨hnext, hsuf₃, hlt⟩ := gettoken_after hus
    have hlen₂ := hsuf₂.length_le
    rcases hline (gettoken (skip s₂)).ps (by omega) with ⟨msg, hl⟩ | ⟨us', d, s', hl, hd',
      hs', hsuf'⟩
    · exact .inl ⟨msg, by rw [hl]; rfl⟩
    · refine .inr ⟨_, _, s', by rw [Lib.bind_ok hl]; rfl, .seq k hd hd', ?_,
        hsuf'.trans (hsuf₃.trans (hsuf₂.trans hsuf))⟩
      rw [hs, hs₂, hus, ← hnext, hs', List.append_assoc, List.append_assoc, List.cons_append]
  · rw [if_neg hmore]
    refine .inr ⟨_, _, skip s₂, rfl, .last k hd, ?_, (skip_suffix s₂).trans (hsuf₂.trans hsuf)⟩
    rw [hs, hs₂, tokens_skip, List.append_assoc]

theorem sound_pipe {m : ℕ} (hexec : Sound .exec s (parseexec m s))
    (hpipe : ∀ s' : Cursor, s'.length < s.length → Sound .pipe s' (parsepipe m s')) :
    Sound .pipe s (parsepipe (m + 1) s) := by
  rw [parsepipe]
  rcases hexec with ⟨msg, he⟩ | ⟨ts, c, s₁, he, hd, hs, hsuf⟩
  · exact .inl ⟨msg, by rw [he]; rfl⟩
  have hlen := hsuf.length_le
  rw [Lib.bind_ok he]
  simp only [peek_bar]
  by_cases hmore : starts [b '|'] (tokens s₁) = true
  · rw [if_pos hmore]
    obtain ⟨us, hus⟩ := starts_single (u := .bar) (by decide) hmore
    obtain ⟨hnext, hsuf₂, hlt⟩ := gettoken_after hus
    rcases hpipe (gettoken (skip s₁)).ps (by omega) with ⟨msg, hp⟩ | ⟨us', d, s', hp, hd',
      hs', hsuf'⟩
    · exact .inl ⟨msg, by rw [hp]; rfl⟩
    · refine .inr ⟨_, _, s', by rw [Lib.bind_ok hp]; rfl, .bar hd hd', ?_,
        hsuf'.trans (hsuf₂.trans hsuf)⟩
      rw [hs, hus, ← hnext, hs', List.append_assoc, List.cons_append]
  · rw [if_neg hmore]
    exact .inr ⟨_, _, skip s₁, rfl, .one hd, by rw [hs, tokens_skip], (skip_suffix s₁).trans hsuf⟩

theorem sound_block {m : ℕ} (hts : tokens s = .lparen :: ts)
    (hline : ∀ s' : Cursor, s'.length < s.length → Sound .line s' (parseline m s'))
      (hm : s.length ≤ m) :
    Sound .exec s (parseblock (m + 1) (skip s)) := by
  rw [parseblock]
  simp only [peek_lparen, tokens_skip, skip_skip]
  obtain ⟨hnext, hsuf, hlt⟩ := gettoken_after hts
  rw [if_pos (by rw [hts]; rfl)]
  rcases hline (gettoken (skip s)).ps hlt with ⟨msg, hl⟩ | ⟨us, c, s₁, hl, hd, hs₁, hsuf₁⟩
  · exact .inl ⟨msg, by rw [hl]; rfl⟩
  have hlen₁ := hsuf₁.length_le
  rw [Lib.bind_ok hl]
  simp only [peek_rparen]
  by_cases hclose : starts [b ')'] (tokens s₁) = true
  · rw [if_pos hclose]
    obtain ⟨us', hus⟩ := starts_single (u := .rparen) (by decide) hclose
    obtain ⟨hnext₂, hsuf₂, hlt₂⟩ := gettoken_after hus
    rcases parseredirs_sound (c := c) (s := (gettoken (skip s₁)).ps) (n := m) (by omega) with
      hpanic | ⟨rs, s', hr, hs', hsuf'⟩
    · exact .inl hpanic
    · refine .inr ⟨_, _, s', hr, .block rs hd, ?_, hsuf'.trans (hsuf₂.trans (hsuf₁.trans hsuf))⟩
      rw [hts, ← hnext, hs₁, hus, ← hnext₂, hs', List.cons_append, List.append_assoc,
        List.cons_append]
  · rw [if_neg hclose]
    exact .inl ⟨_, rfl⟩

theorem sound_exec {m : ℕ} (hline : ∀ s' : Cursor, s'.length < s.length →
    Sound .line s' (parseline m s'))
    (hm : s.length ≤ m) : Sound .exec s (parseexec (m + 2) s) := by
  rw [parseexec]
  simp only [peek_lparen]
  by_cases hopen : starts [b '('] (tokens s) = true
  · rw [if_pos hopen]
    obtain ⟨ts, hts⟩ := starts_single (u := .lparen) (by decide) hopen
    exact sound_block hts hline hm
  · rw [if_neg hopen]
    have hlen := (skip_suffix s).length_le
    rcases parseredirs_sound (c := .exec []) (s := skip s) (n := m + 1) (by omega) with
      ⟨msg, hr⟩ | ⟨rs, s₁, hr, hs₁, hsuf₁⟩
    · exact .inl ⟨msg, by rw [hr]; rfl⟩
    · have hlen₁ := hsuf₁.length_le
      rw [Lib.bind_ok hr]
      rcases parseargs_sound 0 rs [] (s := s₁) (n := m + 1) (by omega) (by omega) with
        hpanic | ⟨gs, s', ha, hs', hle, hsuf'⟩
      · exact .inl hpanic
      · refine .inr ⟨redirToks rs ++ groupToks gs, _, s', ha, .simple rs gs (by omega), ?_,
          hsuf'.trans (hsuf₁.trans (skip_suffix s))⟩
        rw [← tokens_skip, hs₁, hs', List.append_assoc]

/-- Every procedure comes to an end within the depth that its text allows, and is sound. -/
theorem run_sound (sym : Sym) (hn : 4 * s.length + sym.depth ≤ n) : Sound sym s (run sym n s) := by
  -- on the depth; each procedure hands a smaller one to those it calls
  induction n using Nat.strong_induction_on generalizing sym s with
  | _ n ih =>
    cases sym with
    | line =>
      change 4 * s.length + 4 ≤ n at hn
      obtain ⟨m, rfl⟩ : ∃ m, n = m + 1 := ⟨n - 1, by omega⟩
      exact sound_line (ih m (by omega) .pipe (by change _ + 3 ≤ m; omega))
        (fun s' hs' => ih m (by omega) .line (by change _ + 4 ≤ m; omega)) (by omega)
    | pipe =>
      change 4 * s.length + 3 ≤ n at hn
      obtain ⟨m, rfl⟩ : ∃ m, n = m + 1 := ⟨n - 1, by omega⟩
      exact sound_pipe (ih m (by omega) .exec (by change _ + 2 ≤ m; omega))
        fun s' hs' => ih m (by omega) .pipe (by change _ + 3 ≤ m; omega)
    | exec =>
      change 4 * s.length + 2 ≤ n at hn
      obtain ⟨m, rfl⟩ : ∃ m, n = m + 2 := ⟨n - 2, by omega⟩
      exact sound_exec (fun s' hs' => ih m (by omega) .line (by change _ + 4 ≤ m; omega)) (by omega)

/-- A text with these tokens is accepted before a token that may follow it, with this tree. -/
def Complete (sym : Sym) (ts : List Tok) (c : Cmd) : Prop :=
  ∀ {n : ℕ} {s : Cursor} {rest : List Tok}, tokens s = ts ++ rest → Follows sym rest →
    4 * s.length + sym.depth ≤ n → ∃ s', run sym n s = .ok (c, s') ∧ tokens s' = rest ∧ s' <:+ s

variable {d : Cmd}

theorem complete_last (hp : Complete .pipe ts c) (k : ℕ) :
    Complete .line (ts ++ List.replicate k .amp) (Cmd.back^[k] c) := by
  intro n s rest hs hrest hn
  change 4 * s.length + 4 ≤ n at hn
  obtain ⟨m, rfl⟩ : ∃ m, n = m + 1 := ⟨n - 1, by omega⟩
  rw [List.append_assoc] at hs
  have hfollow : Follows .pipe (List.replicate k .amp ++ rest) := by
    cases k with
    | zero => exact fun t ht => List.mem_append_left _ (hrest t ht)
    | succ k => exact fun t ht => by rw [← Option.some.inj ht]; decide
  obtain ⟨s₁, hr, hs₁, hsuf₁⟩ := hp hs hfollow (by change _ + 3 ≤ m; omega)
  have hlen := hsuf₁.length_le
  obtain ⟨s₂, hb, hs₂, hsuf₂⟩ :=
    parsebacks_complete (c := c) (n := m) hs₁ (hrest.starts (by decide)) (by omega)
  refine ⟨skip s₂, ?_, by rw [tokens_skip, hs₂], (skip_suffix s₂).trans (hsuf₂.trans hsuf₁)⟩
  have hno : starts [b ';'] (tokens s₂) = false := by rw [hs₂]; exact hrest.starts (by decide)
  change parseline (m + 1) s = _
  rw [parseline, Lib.bind_ok (show parsepipe m s = _ from hr), Lib.bind_ok hb]
  simp only [peek_semi, hno]
  rfl

theorem complete_seq (hp : Complete .pipe ts c) (k : ℕ) (hl : Complete .line us d) :
    Complete .line (ts ++ (List.replicate k .amp ++ .semi :: us)) (.list (Cmd.back^[k] c) d) := by
  intro n s rest hs hrest hn
  change 4 * s.length + 4 ≤ n at hn
  obtain ⟨m, rfl⟩ : ∃ m, n = m + 1 := ⟨n - 1, by omega⟩
  rw [List.append_assoc, List.append_assoc, List.cons_append] at hs
  have hfollow : Follows .pipe (List.replicate k .amp ++ .semi :: (us ++ rest)) := by
    cases k with
    | zero => exact fun t ht => by rw [← Option.some.inj ht]; decide
    | succ k => exact fun t ht => by rw [← Option.some.inj ht]; decide
  obtain ⟨s₁, hr, hs₁, hsuf₁⟩ := hp hs hfollow (by change _ + 3 ≤ m; omega)
  have hlen := hsuf₁.length_le
  obtain ⟨s₂, hb, hs₂, hsuf₂⟩ := parsebacks_complete (c := c) (n := m) hs₁ rfl (by omega)
  obtain ⟨hnext, hsuf₃, hlt⟩ := gettoken_after hs₂
  have hlen₂ := hsuf₂.length_le
  obtain ⟨s', hr', hs', hsuf'⟩ := hl hnext hrest (by change _ + 4 ≤ m; omega)
  refine ⟨s', ?_, hs', hsuf'.trans (hsuf₃.trans (hsuf₂.trans hsuf₁))⟩
  have hyes : starts [b ';'] (tokens s₂) = true := by rw [hs₂]; rfl
  change parseline (m + 1) s = _
  rw [parseline, Lib.bind_ok (show parsepipe m s = _ from hr), Lib.bind_ok hb]
  simp only [peek_semi, hyes]
  rw [if_pos trivial, Lib.bind_ok (show parseline m (gettoken (skip s₂)).ps = _ from hr')]
  rfl

theorem complete_one (he : Complete .exec ts c) : Complete .pipe ts c := by
  intro n s rest hs hrest hn
  change 4 * s.length + 3 ≤ n at hn
  obtain ⟨m, rfl⟩ : ∃ m, n = m + 1 := ⟨n - 1, by omega⟩
  have hfollow : Follows .exec rest := fun t ht =>
    List.mem_append_left [Tok.bar] (show t ∈ [.rparen, .amp, .semi] from hrest t ht)
  obtain ⟨s₁, hr, hs₁, hsuf₁⟩ := he hs hfollow (by change _ + 2 ≤ m; omega)
  refine ⟨skip s₁, ?_, by rw [tokens_skip, hs₁], (skip_suffix s₁).trans hsuf₁⟩
  have hno : starts [b '|'] (tokens s₁) = false := by rw [hs₁]; exact hrest.starts (by decide)
  change parsepipe (m + 1) s = _
  rw [parsepipe, Lib.bind_ok (show parseexec m s = _ from hr)]
  simp only [peek_bar, hno]
  rfl

theorem complete_bar (he : Complete .exec ts c) (hp : Complete .pipe us d) :
    Complete .pipe (ts ++ .bar :: us) (.pipe c d) := by
  intro n s rest hs hrest hn
  change 4 * s.length + 3 ≤ n at hn
  obtain ⟨m, rfl⟩ : ∃ m, n = m + 1 := ⟨n - 1, by omega⟩
  rw [List.append_assoc, List.cons_append] at hs
  have hfollow : Follows .exec (.bar :: (us ++ rest)) :=
    fun t ht => by rw [← Option.some.inj ht]; decide
  obtain ⟨s₁, hr, hs₁, hsuf₁⟩ := he hs hfollow (by change _ + 2 ≤ m; omega)
  have hlen := hsuf₁.length_le
  obtain ⟨hnext, hsuf₂, hlt⟩ := gettoken_after hs₁
  obtain ⟨s', hr', hs', hsuf'⟩ := hp hnext hrest (by change _ + 3 ≤ m; omega)
  refine ⟨s', ?_, hs', hsuf'.trans (hsuf₂.trans hsuf₁)⟩
  have hyes : starts [b '|'] (tokens s₁) = true := by rw [hs₁]; rfl
  change parsepipe (m + 1) s = _
  rw [parsepipe, Lib.bind_ok (show parseexec m s = _ from hr)]
  simp only [peek_bar, hyes]
  rw [if_pos trivial, Lib.bind_ok (show parsepipe m (gettoken (skip s₁)).ps = _ from hr')]
  rfl

theorem complete_block (hl : Complete .line ts c) (rs : List Redir) :
    Complete .exec (.lparen :: (ts ++ .rparen :: redirToks rs)) (wrapAll rs c) := by
  intro n s rest hs hrest hn
  change 4 * s.length + 2 ≤ n at hn
  obtain ⟨m, rfl⟩ : ∃ m, n = m + 2 := ⟨n - 2, by omega⟩
  rw [List.cons_append, List.append_assoc, List.cons_append] at hs
  obtain ⟨hnext, hsuf, hlt⟩ := gettoken_after hs
  have hfollow : Follows .line (.rparen :: (redirToks rs ++ rest)) := fun t ht => by
    rw [← Option.some.inj ht]; decide
  obtain ⟨s₁, hr, hs₁, hsuf₁⟩ := hl hnext hfollow (by change _ + 4 ≤ m; omega)
  have hlen₁ := hsuf₁.length_le
  obtain ⟨hnext₂, hsuf₂, hlt₂⟩ := gettoken_after hs₁
  obtain ⟨s', hr', hs', hsuf'⟩ :=
    parseredirs_complete (c := c) (n := m) hnext₂ (hrest.starts (by decide)) (by omega)
  refine ⟨s', ?_, hs', hsuf'.trans (hsuf₂.trans (hsuf₁.trans hsuf))⟩
  have hopen : starts [b '('] (tokens s) = true := by rw [hs]; rfl
  have hclose : starts [b ')'] (tokens s₁) = true := by rw [hs₁]; rfl
  change parseexec (m + 2) s = _
  rw [parseexec]
  simp only [peek_lparen, hopen]
  rw [if_pos trivial, parseblock]
  simp only [peek_lparen, tokens_skip, skip_skip, hopen]
  rw [if_pos trivial, Lib.bind_ok (show parseline m (gettoken (skip s)).ps = _ from hr)]
  simp only [peek_rparen, hclose]
  exact (if_pos trivial).trans hr'

theorem complete_simple (rs : List Redir) (gs : List Group) (hgs : gs.length ≤ 9) :
    Complete .exec (redirToks rs ++ groupToks gs)
      (wrapAll (rs ++ gs.flatMap Prod.snd) (.exec (gs.map Prod.fst))) := by
  intro n s rest hs hrest hn
  change 4 * s.length + 2 ≤ n at hn
  obtain ⟨m, rfl⟩ : ∃ m, n = m + 2 := ⟨n - 2, by omega⟩
  rw [List.append_assoc] at hs
  have hlen := (skip_suffix s).length_le
  have hopen : starts [b '('] (tokens s) = false := by
    rw [hs]
    cases rs with
    | nil => exact starts_groupToks hrest (by decide) (by decide)
    | cons r rs =>
      obtain ⟨d, w⟩ := r
      cases d <;> rfl
  obtain ⟨s₁, hr, hs₁, hsuf₁⟩ := parseredirs_complete (c := .exec []) (s := skip s) (n := m + 1)
    ((tokens_skip s).trans hs) (starts_groupToks hrest (by decide) (by decide)) (by omega)
  have hlen₁ := hsuf₁.length_le
  obtain ⟨s', ha, hs', hsuf'⟩ := parseargs_complete 0 rs [] (n := m + 1) hs₁ hrest
    (by omega) (by omega)
  refine ⟨s', ?_, hs', hsuf'.trans (hsuf₁.trans (skip_suffix s))⟩
  change parseexec (m + 2) s = _
  rw [parseexec]
  simp only [peek_lparen, hopen]
  rw [if_neg Bool.false_ne_true, Lib.bind_ok hr]
  exact ha

/-- A derivable text before a token that may follow it is accepted, with its tree. -/
theorem run_complete (h : Derives sym ts c) : Complete sym ts c := by
  induction h with
  | last k _ ih => exact complete_last ih k
  | seq k _ _ ihp ihl => exact complete_seq ihp k ihl
  | one _ ih => exact complete_one ih
  | bar _ _ ihe ihp => exact complete_bar ihe ihp
  | block rs _ ih => exact complete_block ih rs
  | simple rs gs hgs => exact complete_simple rs gs hgs

/-! ## The whole line -/

/-- A text without `NUL` that has no tokens is whitespace. -/
theorem skip_eq_nil (hnul : (0 : UInt8) ∉ s) (h : tokens s = []) : skip s = [] := by
  cases hl : lex s with
  | some p =>
    rw [tokens_some (t := p.1) (e := p.2) hl] at h
    cases h
  | none =>
    have hzero := deref_of_lex_none hl
    cases hq : skip s with
    | nil => rfl
    | cons c r =>
      rw [hq, deref_cons] at hzero
      have hmem : c ∈ s := (skip_suffix s).subset (by rw [hq]; exact List.mem_cons_self ..)
      exact absurd (hzero ▸ hmem) hnul

/-- **The shell accepts exactly its grammar.**  For every buffer and every depth of calls that is
enough for it, `parsecmd` returns a tree exactly if the tokens up to the `NUL` are derivable as a
line, and then it is the tree of that derivation; otherwise it calls `panic`. -/
theorem parsecmd_iff (buf : List UInt8) : ∃ depth, ∀ fuel ≥ depth,
    (∀ c, parsecmd fuel buf = .ok c ↔ Derives .line (tokens (line buf)) c) ∧
    ((∀ c, ¬Derives .line (tokens (line buf)) c) → ∃ msg,
      parsecmd fuel buf = .error (.panic msg)) := by
  refine ⟨4 * (line buf).length + 4, fun fuel hfuel => ?_⟩
  have hcomplete : ∀ c, Derives .line (tokens (line buf)) c → parsecmd fuel buf = .ok c := by
    intro c hd
    obtain ⟨s', hr, hs', hsuf⟩ := run_complete hd (n := fuel) (List.append_nil _).symm
      (fun t ht => (nomatch ht)) hfuel
    rw [parsecmd, Lib.bind_ok (show parseline fuel (line buf) = _ from hr)]
    refine if_neg (not_not.2 ?_)
    exact skip_eq_nil (fun hmem => zero_notMem_line buf (hsuf.subset hmem)) hs'
  rcases run_sound .line (s := line buf) (n := fuel) hfuel with ⟨msg, hr⟩ | ⟨ts, c, s', hr,
    hd, hs, hsuf⟩
  · have hpanic : parsecmd fuel buf = .error (.panic msg) := by
      rw [parsecmd, show parseline fuel (line buf) = _ from hr]
      rfl
    refine ⟨fun c => ⟨fun h => ?_, hcomplete c⟩, fun _ => ⟨msg, hpanic⟩⟩
    rw [hpanic] at h
    cases h
  · by_cases hend : skip s' = []
    · have hnil : tokens s' = [] := by
        rw [← tokens_skip, hend]
        exact tokens_none rfl
      rw [hnil, List.append_nil] at hs
      have hok : parsecmd fuel buf = .ok c := hcomplete c (hs ▸ hd)
      refine ⟨fun c' => ⟨fun h => ?_, hcomplete c'⟩, fun hnone => absurd (hs ▸ hd) (hnone c)⟩
      obtain rfl : c = c' := Except.ok.inj (hok.symm.trans h)
      exact hs ▸ hd
    · have hpanic : parsecmd fuel buf = .error (.panic "syntax") := by
        rw [parsecmd, Lib.bind_ok (show parseline fuel (line buf) = _ from hr)]
        exact if_pos hend
      refine ⟨fun c' => ⟨fun h => ?_, hcomplete c'⟩, fun _ => ⟨_, hpanic⟩⟩
      rw [hpanic] at h
      cases h

end Xv6.User.Sh
