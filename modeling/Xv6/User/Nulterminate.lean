import Xv6.Lib.Relate
import Xv6.User.Sh

/-!
# The words of a command in the buffer

The parser of `user/src/sh.rs` keeps a word as two pointers into the buffer, and `nulterminate` goes
over the tree and writes a `NUL` where each word ends.  Here the parser is written once more with
the pointers in the tree; the parser of `Xv6.User.Sh` has the words in their place.

* `Word`, `Node` — the tree with its pointers; `Node.erase` — the words they stand for.
* `parsecmd` — the parser, with `nulterminate` at its end.
* `Munched` — a word ends where no byte of a word follows; `same_parse` — so do all words of a tree,
  and the two parsers agree.
* `words_survive` — behind `nulterminate` the pointers lead to the words of the original buffer.
-/

namespace Xv6.User.Sh.Ptr

open Lib List

/-- `argv[i]` and `eargv[i]`, or `file` and `efile`. -/
structure Word where
  q : Cursor
  eq : Cursor

/-- The nodes of `sh.rs`, with their pointers. -/
inductive Node where
  | exec (argv : List Word)
  | redir (cmd : Node) (file : Word) (mode : ℕ) (fd : ℕ)
  | pipe (left right : Node)
  | list (left right : Node)
  | back (cmd : Node)

namespace Node

/-- `(*ecmd).argv[argc] = q; (*ecmd).eargv[argc] = eq`. -/
def push (w : Word) : Node → Node
  | .exec argv => .exec (argv ++ [w])
  | .redir cmd file mode fd => .redir (cmd.push w) file mode fd
  | cmd => cmd

/-- All words of a tree, as `nulterminate` comes to them. -/
def words : Node → List Word
  | .exec argv => argv
  | .redir cmd file _ _ => cmd.words ++ [file]
  | .pipe left right => left.words ++ right.words
  | .list left right => left.words ++ right.words
  | .back cmd => cmd.words

/-- The tree with something in the place of each pair of pointers. -/
def mapWords (f : Word → List UInt8) : Node → Cmd
  | .exec argv => .exec (argv.map f)
  | .redir cmd file mode fd => .redir (cmd.mapWords f) (f file) mode fd
  | .pipe left right => .pipe (left.mapWords f) (right.mapWords f)
  | .list left right => .list (left.mapWords f) (right.mapWords f)
  | .back cmd => .back (cmd.mapWords f)

end Node

/-- The bytes of a word when it was parsed. -/
def Word.text (w : Word) : List UInt8 := Sh.text w.q w.eq

/-- The words that the pointers stood for when they were stored. -/
def Node.erase (cmd : Node) : Cmd := cmd.mapWords Word.text

/-! ## The parser -/

/-- The node that `parseredirs` makes for a token. -/
def redirect (tok : UInt8) (cmd : Node) (file : Word) : Node :=
  if tok = b '<' then .redir cmd file O_RDONLY 0
  else if tok = b '>' then .redir cmd file (O_WRONLY ||| O_CREATE) 1
  else if tok = b '+' then .redir cmd file (O_WRONLY ||| O_CREATE) 1
  else cmd

/-- `parseredirs`. -/
def parseredirs : ℕ → Node → Cursor → Except Fault (Node × Cursor)
  | 0, _, _ => .error .fuel
  | n + 1, cmd, s =>
    if (peek s [b '<', b '>']).1 then
      let tok := gettoken (peek s [b '<', b '>']).2
      let file := gettoken tok.ps
      if file.ret ≠ b 'a' then .error (.panic "missing file for redirection")
      else parseredirs n (redirect tok.ret cmd ⟨file.q, file.eq⟩) file.ps
    else .ok (cmd, (peek s [b '<', b '>']).2)

/-- The loop of `parseline` over `&`. -/
def parsebacks : ℕ → Node → Cursor → Except Fault (Node × Cursor)
  | 0, _, _ => .error .fuel
  | n + 1, cmd, s =>
    if (peek s [b '&']).1 then parsebacks n (.back cmd) (gettoken (peek s [b '&']).2).ps
    else .ok (cmd, (peek s [b '&']).2)

/-- The loop of `parseexec` over the words. -/
def parseargs : ℕ → ℕ → Node → Cursor → Except Fault (Node × Cursor)
  | 0, _, _, _ => .error .fuel
  | n + 1, argc, cmd, s =>
    if (peek s [b '|', b ')', b '&', b ';']).1
      then .ok (cmd, (peek s [b '|', b ')', b '&', b ';']).2)
    else
      let tok := gettoken (peek s [b '|', b ')', b '&', b ';']).2
      if tok.ret = 0 then .ok (cmd, tok.ps)
      else if tok.ret ≠ b 'a' then .error (.panic "syntax")
      else if MAXARGS ≤ argc + 1 then .error (.panic "too many args")
      else do
        let r ← parseredirs n (cmd.push ⟨tok.q, tok.eq⟩) tok.ps
        parseargs n (argc + 1) r.1 r.2

mutual

/-- `parseline`. -/
def parseline : ℕ → Cursor → Except Fault (Node × Cursor)
  | 0, _ => .error .fuel
  | n + 1, s => do
    let r ← parsepipe n s
    let r ← parsebacks n r.1 r.2
    if (peek r.2 [b ';']).1 then
      let right ← parseline n (gettoken (peek r.2 [b ';']).2).ps
      pure (.list r.1 right.1, right.2)
    else pure (r.1, (peek r.2 [b ';']).2)

/-- `parsepipe`. -/
def parsepipe : ℕ → Cursor → Except Fault (Node × Cursor)
  | 0, _ => .error .fuel
  | n + 1, s => do
    let r ← parseexec n s
    if (peek r.2 [b '|']).1 then
      let right ← parsepipe n (gettoken (peek r.2 [b '|']).2).ps
      pure (.pipe r.1 right.1, right.2)
    else pure (r.1, (peek r.2 [b '|']).2)

/-- `parseblock`. -/
def parseblock : ℕ → Cursor → Except Fault (Node × Cursor)
  | 0, _ => .error .fuel
  | n + 1, s =>
    if (peek s [b '(']).1 then do
      let r ← parseline n (gettoken (peek s [b '(']).2).ps
      if (peek r.2 [b ')']).1 then parseredirs n r.1 (gettoken (peek r.2 [b ')']).2).ps
      else .error (.panic "syntax - missing )")
    else .error (.panic "parseblock")

/-- `parseexec`. -/
def parseexec : ℕ → Cursor → Except Fault (Node × Cursor)
  | 0, _ => .error .fuel
  | n + 1, s =>
    if (peek s [b '(']).1 then parseblock n (peek s [b '(']).2
    else do
      let r ← parseredirs n (.exec []) (peek s [b '(']).2
      parseargs n 0 r.1 r.2

end

/-- The place of a cursor in a buffer with a text of length `n`. -/
def pos (n : ℕ) (s : Cursor) : ℕ := n - s.length

/-- `*eargv[i] = 0`, or `*efile = 0`. -/
def terminate (n : ℕ) (buf : List UInt8) (w : Word) : List UInt8 := buf.set (pos n w.eq) 0

/-- `nulterminate`. -/
def nulterminate (n : ℕ) : Node → List UInt8 → List UInt8
  | .exec argv, buf => argv.foldl (terminate n) buf
  | .redir cmd file _ _, buf => terminate n (nulterminate n cmd buf) file
  | .pipe left right, buf => nulterminate n right (nulterminate n left buf)
  | .list left right, buf => nulterminate n right (nulterminate n left buf)
  | .back cmd, buf => nulterminate n cmd buf

/-- `parsecmd`: the tree, and the buffer behind `nulterminate`. -/
def parsecmd (fuel : ℕ) (buf : List UInt8) : Except Fault (Node × List UInt8) := do
  let r ← parseline fuel (line buf)
  if (peek r.2 []).2 ≠ [] then .error (.panic "syntax")
  else pure (r.1, nulterminate (line buf).length r.1 buf)

/-! ## Where words end -/

/-- The word goes on for as long as its bytes can be part of one. -/
structure Munched (l : Cursor) (w : Word) : Prop where
  suffix : w.q <:+ l
  munch : w.eq = w.q.dropWhile inWord

variable {l s : Cursor} {w w' : Word} {cmd : Node} {n : ℕ}

theorem gettoken_suffix (s : Cursor) : (gettoken s).q <:+ s ∧ (gettoken s).ps <:+ s := by
  have hscan : (scan (skip s)).2 <:+ skip s := by
    unfold scan
    split_ifs
    · exact suffix_refl _
    · exact tail_suffix _
    · exact (tail_suffix _).trans (tail_suffix _)
    · exact tail_suffix _
    · exact dropWhile_suffix _
  exact ⟨skip_suffix s, (skip_suffix _).trans (hscan.trans (skip_suffix s))⟩

/-- A token with the code of a word is one. -/
theorem gettoken_munched (hs : s <:+ l) (hret : (gettoken s).ret = b 'a') :
    Munched l ⟨(gettoken s).q, (gettoken s).eq⟩ := by
  refine ⟨(gettoken_suffix s).1.trans hs, ?_⟩
  change (scan (skip s)).1 = b 'a' at hret
  change (scan (skip s)).2 = (skip s).dropWhile inWord
  unfold scan at hret ⊢
  split_ifs at hret ⊢ with h0 hsym hgt hgg
  · exact absurd (show (0 : UInt8) = b 'a' from hret) (by decide)
  · rw [show deref (skip s) = b 'a' from hret] at hsym
    exact absurd hsym (by decide)
  · exact absurd (show b '+' = b 'a' from hret) (by decide)
  · exact absurd (show b '>' = b 'a' from hret) (by decide)
  · rfl

/-! ## The two parsers -/

/-- All words of a tree end where they should. -/
def Sound (l : Cursor) (cmd : Node) : Prop := ∀ w ∈ cmd.words, Munched l w

theorem sound_append {left right : List Word} (hl : ∀ w ∈ left, Munched l w)
    (hr : ∀ w ∈ right, Munched l w) : ∀ w ∈ left ++ right, Munched l w :=
  forall_mem_append.2 ⟨hl, hr⟩

theorem Sound.push (h : Sound l cmd) (hw : Munched l w) : Sound l (cmd.push w) := by
  induction cmd with
  | exec argv => exact sound_append h (by simpa using hw)
  | redir cmd file mode fd ih =>
    obtain ⟨hcmd, hfile⟩ := forall_mem_append.1 h
    exact sound_append (ih hcmd) hfile
  | pipe left right => exact h
  | list left right => exact h
  | back cmd => exact h

theorem erase_push (cmd : Node) (w : Word) : (cmd.push w).erase = cmd.erase.push w.text := by
  induction cmd with
  | exec argv => simp [Node.push, Node.erase, Node.mapWords, Cmd.push]
  | redir cmd file mode fd ih =>
    simp only [Node.erase] at ih
    simp [Node.push, Node.erase, Node.mapWords, Cmd.push, ih]
  | pipe left right => rfl
  | list left right => rfl
  | back cmd => rfl

theorem Sound.redirect (h : Sound l cmd) (hw : Munched l w) (tok : UInt8) :
    Sound l (redirect tok cmd w) := by
  have hnode : ∀ mode fd, Sound l (.redir cmd w mode fd) := fun mode fd =>
    sound_append h (by simpa using hw)
  unfold Ptr.redirect
  split_ifs
  · exact hnode _ _
  · exact hnode _ _
  · exact hnode _ _
  · exact h

theorem erase_redirect (tok : UInt8) (cmd : Node) (w : Word) :
    (redirect tok cmd w).erase = Sh.redirect tok cmd.erase w.text := by
  unfold Ptr.redirect Sh.redirect
  split_ifs
  · rfl
  · rfl
  · rfl
  · rfl

/-- What the two parsers have in common: the text that is left, and the words that the pointers
stand for, which end where they should. -/
def Same (l : Cursor) (r : Node × Cursor) (r' : Cmd × Cursor) : Prop :=
  r' = (r.1.erase, r.2) ∧ r.2 <:+ l ∧ Sound l r.1

theorem peek_suffix (hs : s <:+ l) (toks : List UInt8) : (peek s toks).2 <:+ l :=
  (skip_suffix s).trans hs

theorem next_suffix (hs : s <:+ l) : (gettoken s).ps <:+ l := (gettoken_suffix s).2.trans hs

theorem same_parseredirs (hs : s <:+ l) (hcmd : Sound l cmd) :
    Relate (Same l) (parseredirs n cmd s) (Sh.parseredirs n cmd.erase s) := by
  induction n generalizing cmd s with
  | zero => exact .error _
  | succ n ih =>
    simp only [parseredirs, Sh.parseredirs]
    have htok := next_suffix (peek_suffix hs [b '<', b '>'])
    refine Relate.ite (fun _ => ?_) fun _ => ?_
    · refine Relate.ite (fun _ => .error _) fun hword => ?_
      have hmunch := gettoken_munched htok (not_not.1 hword)
      have hrest := ih (next_suffix htok)
        (hcmd.redirect hmunch (gettoken (peek s [b '<', b '>']).2).ret)
      rw [erase_redirect] at hrest
      exact hrest
    · exact .ok ⟨rfl, peek_suffix hs [b '<', b '>'], hcmd⟩

theorem same_parsebacks (hs : s <:+ l) (hcmd : Sound l cmd) :
    Relate (Same l) (parsebacks n cmd s) (Sh.parsebacks n cmd.erase s) := by
  induction n generalizing cmd s with
  | zero => exact .error _
  | succ n ih =>
    simp only [parsebacks, Sh.parsebacks]
    refine Relate.ite (fun _ => ?_) fun _ => .ok ⟨rfl, peek_suffix hs [b '&'], hcmd⟩
    have hback : Sound l (.back cmd) := hcmd
    exact ih (next_suffix (peek_suffix hs _)) hback

theorem same_parseargs {argc : ℕ} (hs : s <:+ l) (hcmd : Sound l cmd) :
    Relate (Same l) (parseargs n argc cmd s) (Sh.parseargs n argc cmd.erase s) := by
  induction n generalizing argc cmd s with
  | zero => exact .error _
  | succ n ih =>
    simp only [parseargs, Sh.parseargs]
    have hpeek := peek_suffix hs [b '|', b ')', b '&', b ';']
    refine Relate.ite (fun _ => .ok ⟨rfl, hpeek, hcmd⟩) fun _ => ?_
    refine Relate.ite (fun _ => .ok ⟨rfl, next_suffix hpeek, hcmd⟩) fun _ => ?_
    refine Relate.ite (fun _ => .error _) fun hword => ?_
    refine Relate.ite (fun _ => .error _) fun _ => ?_
    have hmunch := gettoken_munched hpeek (not_not.1 hword)
    have hredirs := same_parseredirs (n := n) (next_suffix hpeek) (hcmd.push hmunch)
    rw [erase_push] at hredirs
    refine hredirs.bind ?_
    rintro ⟨cmd', s'⟩ _ ⟨rfl, hs', hcmd'⟩
    exact ih hs' hcmd'

/-- **The four procedures that call each other**, by induction on the bound on their calls. -/
theorem same_parse (l : Cursor) (n : ℕ) : ∀ s, s <:+ l →
    Relate (Same l) (parseline n s) (Sh.parseline n s) ∧
    Relate (Same l) (parsepipe n s) (Sh.parsepipe n s) ∧
    Relate (Same l) (parseblock n s) (Sh.parseblock n s) ∧
    Relate (Same l) (parseexec n s) (Sh.parseexec n s) := by
  induction n with
  | zero =>
    intro s _
    simp only [parseline, parsepipe, parseblock, parseexec, Sh.parseline, Sh.parsepipe,
      Sh.parseblock, Sh.parseexec]
    exact ⟨.error _, .error _, .error _, .error _⟩
  | succ n ih =>
    intro s hs
    simp only [parseline, parsepipe, parseblock, parseexec, Sh.parseline, Sh.parsepipe,
      Sh.parseblock, Sh.parseexec]
    refine ⟨?_, ?_, ?_, ?_⟩
    · refine (ih s hs).2.1.bind ?_
      rintro ⟨cmd, s₁⟩ _ ⟨rfl, hs₁, hcmd⟩
      refine (same_parsebacks hs₁ hcmd).bind ?_
      rintro ⟨cmd, s₂⟩ _ ⟨rfl, hs₂, hcmd⟩
      refine Relate.ite (fun _ => ?_) fun _ => .ok ⟨rfl, peek_suffix hs₂ [b ';'], hcmd⟩
      refine (ih _ (next_suffix (peek_suffix hs₂ _))).1.bind ?_
      rintro ⟨right, s₃⟩ _ ⟨rfl, hs₃, hright⟩
      exact .ok ⟨rfl, hs₃, sound_append hcmd hright⟩
    · refine (ih s hs).2.2.2.bind ?_
      rintro ⟨cmd, s₁⟩ _ ⟨rfl, hs₁, hcmd⟩
      refine Relate.ite (fun _ => ?_) fun _ => .ok ⟨rfl, peek_suffix hs₁ [b '|'], hcmd⟩
      refine (ih _ (next_suffix (peek_suffix hs₁ _))).2.1.bind ?_
      rintro ⟨right, s₂⟩ _ ⟨rfl, hs₂, hright⟩
      exact .ok ⟨rfl, hs₂, sound_append hcmd hright⟩
    · refine Relate.ite (fun _ => ?_) fun _ => .error _
      refine (ih _ (next_suffix (peek_suffix hs _))).1.bind ?_
      rintro ⟨cmd, s₁⟩ _ ⟨rfl, hs₁, hcmd⟩
      refine Relate.ite (fun _ => ?_) fun _ => .error _
      exact same_parseredirs (next_suffix (peek_suffix hs₁ _)) hcmd
    · refine Relate.ite (fun _ => (ih _ (peek_suffix hs _)).2.2.1) fun _ => ?_
      have hempty : Sound l (.exec []) := fun w hw => absurd hw not_mem_nil
      refine (same_parseredirs (peek_suffix hs _) hempty).bind ?_
      rintro ⟨cmd, s₁⟩ _ ⟨rfl, hs₁, hcmd⟩
      exact same_parseargs hs₁ hcmd

/-- **`parsecmd`**: the two parsers return the same tree. -/
theorem same_parsecmd (fuel : ℕ) (buf : List UInt8) :
    Relate (fun r cmd => cmd = r.1.erase ∧ Sound (line buf) r.1 ∧
        r.2 = nulterminate (line buf).length r.1 buf)
      (parsecmd fuel buf) (Sh.parsecmd fuel buf) := by
  refine (same_parse (line buf) fuel _ (suffix_refl _)).1.bind ?_
  rintro ⟨cmd, s⟩ _ ⟨rfl, hs, hcmd⟩
  exact Relate.ite (fun _ => .error _) fun _ => .ok ⟨rfl, hcmd, rfl⟩

/-! ## The buffer -/

/-- The order of the writes does not matter. -/
theorem nulterminate_eq_foldl (cmd : Node) (buf : List UInt8) :
    nulterminate n cmd buf = cmd.words.foldl (terminate n) buf := by
  induction cmd generalizing buf with
  | exec argv => rfl
  | redir cmd file mode fd ih => simp [nulterminate, Node.words, ih]
  | pipe left right ihl ihr => simp [nulterminate, Node.words, ihl, ihr]
  | list left right ihl ihr => simp [nulterminate, Node.words, ihl, ihr]
  | back cmd ih => exact ih buf

theorem length_terminated (ws : List Word) (buf : List UInt8) :
    (ws.foldl (terminate n) buf).length = buf.length := by
  induction ws generalizing buf with
  | nil => rfl
  | cons w ws ih => rw [foldl_cons, ih, terminate, length_set]

/-- A place where no word ends keeps its byte. -/
theorem terminated_of_ne {i : ℕ} (ws : List Word) (buf : List UInt8)
    (h : ∀ w ∈ ws, pos n w.eq ≠ i) : (ws.foldl (terminate n) buf)[i]? = buf[i]? := by
  induction ws generalizing buf with
  | nil => rfl
  | cons w ws ih =>
    rw [forall_mem_cons] at h
    rw [foldl_cons, ih _ h.2, terminate, getElem?_set_ne h.1]

/-- A place where a word ends holds a `NUL`. -/
theorem terminated_of_eq {i : ℕ} (ws : List Word) (buf : List UInt8)
    (h : ∃ w ∈ ws, pos n w.eq = i) (hlt : i < buf.length) :
    (ws.foldl (terminate n) buf)[i]? = some 0 := by
  induction ws generalizing buf with
  | nil =>
    obtain ⟨w, hw, -⟩ := h
    exact absurd hw not_mem_nil
  | cons w ws ih =>
    rw [foldl_cons]
    by_cases hlater : ∃ w' ∈ ws, pos n w'.eq = i
    · exact ih _ hlater (by rwa [terminate, length_set])
    · have hw : pos n w.eq = i := by
        obtain ⟨w', hw', heq⟩ := h
        rcases mem_cons.1 hw' with rfl | hin
        · exact heq
        · exact absurd ⟨w', hin, heq⟩ hlater
      rw [terminated_of_ne ws _ fun w' hin heq => hlater ⟨w', hin, heq⟩, terminate, hw,
        getElem?_set_self hlt]

theorem pos_suffix {a : List UInt8} (s : Cursor) : pos (a ++ s).length s = a.length := by
  rw [pos, length_append, Nat.add_sub_cancel]

/-- A word in the text: what comes before it, and its bytes. -/
theorem Munched.split (h : Munched l w) :
    ∃ a, l = a ++ w.text ++ w.eq ∧ (∀ c ∈ w.text, inWord c = true) ∧
    pos l.length w.q = a.length ∧ pos l.length w.eq = a.length + w.text.length := by
  obtain ⟨⟨a, hq⟩, hmunch⟩ := h
  have hsplit : w.q = w.q.takeWhile inWord ++ w.eq := by
    rw [hmunch, takeWhile_append_dropWhile]
  have htext : w.text = w.q.takeWhile inWord := by
    have happend := text_append (w.q.takeWhile inWord) w.eq
    rw [← hsplit] at happend
    exact happend
  have hl : l = a ++ w.text ++ w.eq := by
    rw [append_assoc, htext, ← hsplit, hq]
  refine ⟨a, hl, fun c hc => ?_, ?_, ?_⟩
  · rw [htext] at hc
    exact mem_takeWhile_imp hc
  · rw [← hq, pos_suffix]
  · rw [hl, pos_suffix, length_append]

/-- The byte where a word ends is not part of one. -/
theorem Munched.ends (h : Munched l w) {c : UInt8} (hc : l[pos l.length w.eq]? = some c) :
    inWord c = false := by
  obtain ⟨a, hl, -, -, hpos⟩ := h.split
  rw [hpos, hl, ← length_append, getElem?_append_right le_rfl, Nat.sub_self,
    ← head?_eq_getElem?, h.munch] at hc
  have hhead := head?_dropWhile_not inWord w.q
  rw [hc] at hhead
  simpa using hhead

/-- **No word ends inside of another.** -/
theorem Munched.disjoint (h : Munched l w) (h' : Munched l w') :
    ¬(pos l.length w.q ≤ pos l.length w'.eq ∧ pos l.length w'.eq < pos l.length w.eq) := by
  rintro ⟨hge, hlt⟩
  obtain ⟨a, hl, hin, hq, heq⟩ := h.split
  obtain ⟨i, hi⟩ := Nat.exists_eq_add_of_le hge
  rw [hi, hq, heq] at hlt
  have hit : i < w.text.length := by omega
  have hbyte : l[pos l.length w'.eq]? = some w.text[i] := by
    rw [hi, hq, hl, append_assoc, getElem?_append_right (Nat.le_add_right _ _),
      Nat.add_sub_cancel_left, getElem?_append_left hit, getElem?_eq_getElem hit]
  have hword := hin _ (getElem_mem hit)
  rw [h'.ends hbyte] at hword
  exact Bool.false_ne_true hword

/-- A string in memory, byte by byte. -/
theorem line_of_getElem? {t m : List UInt8} (hbytes : ∀ i < t.length, m[i]? = t[i]?)
    (hend : m[t.length]? = some 0) (h0 : 0 ∉ t) : line m = t := by
  induction t generalizing m with
  | nil =>
    cases m with
    | nil => rfl
    | cons c m =>
      obtain rfl : c = 0 := by simpa using hend
      rfl
  | cons c t ih =>
    rw [mem_cons, not_or] at h0
    cases m with
    | nil => exact absurd hend (by simp)
    | cons d m =>
      obtain rfl : d = c := by simpa using hbytes 0 (by simp)
      have hrest := ih (m := m) (fun i hi => by simpa using hbytes (i + 1) (by simpa using hi))
        (by simpa using hend) h0.2
      rw [line, takeWhile_cons_of_pos (by simpa using Ne.symm h0.1)]
      exact congrArg (d :: ·) hrest

/-- The text of a buffer is followed by its `NUL`. -/
theorem buf_split {buf : List UInt8} (h : 0 ∈ buf) : ∃ rest, buf = line buf ++ 0 :: rest := by
  obtain ⟨l, rest, rfl, hl⟩ := eq_append_cons_of_mem h
  have hne : ∀ c ∈ l, decide (c ≠ 0) = true := fun c hc =>
    decide_eq_true (ne_of_mem_of_not_mem hc hl)
  refine ⟨rest, ?_⟩
  rw [line, takeWhile_append_of_pos hne, takeWhile_cons_of_neg (by simp), List.append_nil]

theorem length_line_lt {buf : List UInt8} (h : 0 ∈ buf) : (line buf).length < buf.length := by
  obtain ⟨rest, hbuf⟩ := buf_split h
  rw [congrArg List.length hbuf, length_append, length_cons]
  omega

variable {buf : List UInt8}

/-- **A word can be read behind the writes.** -/
theorem line_terminated {ws : List Word} (h0 : 0 ∈ buf) (hws : ∀ w ∈ ws, Munched (line buf) w)
    (hw : w ∈ ws) :
    line ((ws.foldl (terminate (line buf).length) buf).drop (pos (line buf).length w.q)) =
      w.text := by
  obtain ⟨rest, hbuf⟩ := buf_split h0
  obtain ⟨a, hl, -, hq, heq⟩ := (hws w hw).split
  have hlen := length_line_lt h0
  have hle : pos (line buf).length w.eq ≤ (line buf).length := Nat.sub_le _ _
  refine line_of_getElem? (fun i hi => ?_) ?_ fun hin => ?_
  · -- nothing was written here
    have hkeep : ∀ w' ∈ ws, pos (line buf).length w'.eq ≠ pos (line buf).length w.q + i := by
      intro w' hw' hsame
      exact (hws w hw).disjoint (hws w' hw') ⟨by omega, by omega⟩
    have hline : buf[a.length + i]? = (line buf)[a.length + i]? := by
      rw [congrArg (·[a.length + i]?) hbuf, getElem?_append_left (by omega)]
    rw [getElem?_drop, terminated_of_ne ws buf hkeep, hq, hline, hl, append_assoc,
      getElem?_append_right (Nat.le_add_right _ _), Nat.add_sub_cancel_left,
      getElem?_append_left hi]
  · rw [getElem?_drop, hq, ← heq]
    exact terminated_of_eq ws buf ⟨w, hw, rfl⟩ (by omega)
  · refine zero_notMem_line buf ?_
    rw [hl]
    simp [hin]

theorem mapWords_congr {f g : Word → List UInt8} (h : ∀ w ∈ cmd.words, f w = g w) :
    cmd.mapWords f = cmd.mapWords g := by
  induction cmd with
  | exec argv => exact congrArg Cmd.exec (map_congr_left h)
  | redir cmd file mode fd ih =>
    obtain ⟨hcmd, hfile⟩ := forall_mem_append.1 h
    rw [Node.mapWords, Node.mapWords, ih hcmd, hfile file (mem_singleton_self file)]
  | pipe left right ihl ihr =>
    obtain ⟨hl, hr⟩ := forall_mem_append.1 h
    rw [Node.mapWords, Node.mapWords, ihl hl, ihr hr]
  | list left right ihl ihr =>
    obtain ⟨hl, hr⟩ := forall_mem_append.1 h
    rw [Node.mapWords, Node.mapWords, ihl hl, ihr hr]
  | back cmd ih => rw [Node.mapWords, Node.mapWords, ih h]

/-- The tree with the C strings that its pointers lead to in a buffer. -/
def Node.read (n : ℕ) (buf : List UInt8) (cmd : Node) : Cmd :=
  cmd.mapWords fun w => line (buf.drop (pos n w.q))

/-- **Words survive `nulterminate`.**  For every buffer with a `NUL` in it for which `parsecmd`
returns a tree: the words that the tree had in the original buffer are the C strings that its
pointers lead to in the buffer that is left; each `NUL` is written in the buffer, at its terminator
at the latest, and none of them inside of a word. -/
theorem words_survive {fuel : ℕ} {buf' : List UInt8} (h0 : 0 ∈ buf)
    (h : parsecmd fuel buf = .ok (cmd, buf')) :
    Sh.parsecmd fuel buf = .ok cmd.erase ∧ cmd.read (line buf).length buf' = cmd.erase ∧
      buf'.length = buf.length ∧
      ∀ w ∈ cmd.words, w.q <:+ line buf ∧ 0 ∈ buf'.drop (pos (line buf).length w.q) ∧
        pos (line buf).length w.eq ≤ (line buf).length ∧ (line buf).length < buf.length ∧
        ∀ w' ∈ cmd.words, ¬(pos (line buf).length w.q ≤ pos (line buf).length w'.eq ∧
          pos (line buf).length w'.eq < pos (line buf).length w.eq) := by
  have hsame := same_parsecmd fuel buf
  rw [h] at hsame
  obtain ⟨_, hparse, rfl, hsound, hbuf'⟩ := hsame.ok_left
  rw [nulterminate_eq_foldl] at hbuf'
  dsimp only at hsound hbuf' ⊢
  subst hbuf'
  have hlen := length_line_lt h0
  refine ⟨hparse, mapWords_congr fun w hw => line_terminated h0 hsound hw,
    length_terminated _ _, fun w hw => ⟨(hsound w hw).suffix, ?_, Nat.sub_le _ _, hlen,
      fun w' hw' => (hsound w hw).disjoint (hsound w' hw')⟩⟩
  obtain ⟨a, -, -, hq, heq⟩ := (hsound w hw).split
  have hend : (cmd.words.foldl (terminate (line buf).length) buf)[pos (line buf).length w.eq]? =
      some 0 := terminated_of_eq _ _ ⟨w, hw, rfl⟩ ((Nat.sub_le _ _).trans_lt hlen)
  rw [heq, ← hq, ← getElem?_drop] at hend
  exact mem_of_getElem? hend

/-- `a>f`, with more behind the `NUL`. -/
def redirected : List UInt8 := [b 'a', b '>', b 'f', 0, b 'z']

theorem words_survive_redirected : ∃ cmd buf', parsecmd 10 redirected = .ok (cmd, buf') ∧
    cmd.read 3 buf' = .redir (.exec [[b 'a']]) [b 'f'] (O_WRONLY ||| O_CREATE) 1 := by
  have htree : Sh.parsecmd 10 redirected =
      .ok (.redir (.exec [[b 'a']]) [b 'f'] (O_WRONLY ||| O_CREATE) 1) := by decide +kernel
  have hsame := same_parsecmd 10 redirected
  rw [htree] at hsame
  obtain ⟨⟨cmd, buf'⟩, hparse, -⟩ := hsame.ok_right
  obtain ⟨herase, hread, -⟩ := words_survive (by decide) hparse
  rw [htree] at herase
  exact ⟨cmd, buf', hparse, hread.trans (Except.ok.inj herase).symm⟩

end Xv6.User.Sh.Ptr
