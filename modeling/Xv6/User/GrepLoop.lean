import Xv6.Lib.Lines
import Xv6.User.Grep

/-!
# The read loop of grep

`grep` of `user/src/grep.rs`: it fills a buffer with what `read` returns, writes the lines in it
that match, and moves what follows the last newline to the front of the buffer.  A buffer
without a newline is thrown away.

* `scan` — the loop over the lines of the buffer; `scan_eq` — it writes the records that match.
* `turn`, `grep` — one turn of the outer loop, and the whole of it over the results of the reads.
* `sent` — what is offered to the matcher; `sent_eq_iff` — it is the lines of the input exactly
  if no read before a newline is without one.
* `grep_writes_iff` — the same for what is written, whatever the pattern.
-/

namespace Xv6.User.Grep

open Lib List
open Sh (b)

/-- `buf.len()`. -/
abbrev bufLen : ℕ := 1024

/-- `&buf[p..q]`. -/
def slice (buf : List UInt8) (p q : ℕ) : List UInt8 := (buf.take q).drop p

/-- The C string at `p`. -/
def cstr (buf : List UInt8) (p : ℕ) : List UInt8 := (buf.drop p).takeWhile (· ≠ 0)

/-- `while q < m && buf[q] != b'\n'`. -/
def newline (buf : List UInt8) (m q : ℕ) : ℕ :=
  if q < m ∧ buf.getD q 0 ≠ b '\n' then newline buf m (q + 1) else q
termination_by m - q

theorem le_newline (buf : List UInt8) (m q : ℕ) : q ≤ newline buf m q := by
  induction h : m - q generalizing q with
  | zero =>
    rw [newline, if_neg (by omega)]
  | succ n ih =>
    rw [newline]
    split_ifs
    · exact (Nat.le_succ q).trans (ih (q + 1) (by omega))
    · exact le_rfl

/-- What the loop over the lines leaves, with the slices it writes. -/
@[ext] structure Scan where
  buf : List UInt8
  p : ℕ
  writes : List (List UInt8)

/-- `while p < m`. -/
def scan (pattern : List UInt8) (m : ℕ) (buf : List UInt8) (p : ℕ) : Scan :=
  if p < m then
    let q := newline buf m p
    if m ≤ q then ⟨buf, p, []⟩
    else
      -- the line is terminated for the matcher, and put back
      let found := match_pattern pattern (cstr (buf.set q 0) p)
      let buf' := (buf.set q 0).set q (b '\n')
      let rest := scan pattern m buf' (q + 1)
      { rest with writes := (if found then [slice buf' p (q + 1)] else []) ++ rest.writes }
  else ⟨buf, p, []⟩
termination_by m - p
decreasing_by
  have := le_newline buf m p
  omega

/-- `for i in 0..remaining { buf[i] = buf[p + i]; }`. -/
def move (buf : List UInt8) (p remaining : ℕ) : List UInt8 :=
  (List.range remaining).foldl (fun buf i => buf.set i (buf.getD (p + i) 0)) buf

/-- `buf` and `m`. -/
structure Loop where
  buf : List UInt8
  m : ℕ

/-- Before the first read. -/
def Loop.start : Loop := ⟨List.replicate bufLen 0, 0⟩

/-- What `read` is asked for. -/
def Loop.request (s : Loop) : ℕ := bufLen - s.m - 1

/-- `read` has stored the chunk at `m`. -/
def stored (buf : List UInt8) (m : ℕ) (chunk : List UInt8) : List UInt8 :=
  buf.take m ++ chunk ++ buf.drop (m + chunk.length)

/-- One turn of the outer loop, behind the read. -/
def turn (pattern : List UInt8) (s : Loop) (chunk : List UInt8) : Loop × List (List UInt8) :=
  let m := s.m + chunk.length
  let r := scan pattern m ((stored s.buf s.m chunk).set m 0) 0
  if r.p = 0 then (⟨r.buf, 0⟩, r.writes)
  else if 0 < m then (⟨move r.buf r.p (m - r.p), m - r.p⟩, r.writes)
  else (⟨r.buf, m⟩, r.writes)

/-- `grep`, from a state of its loop: the results of the reads, up to the one that ends it, and
the slices that are written. -/
def grepFrom (pattern : List UInt8) : Loop → List (List UInt8) → List (List UInt8)
  | _, [] => []
  | s, chunk :: chunks =>
    if chunk.length = 0 then []
    else (turn pattern s chunk).2 ++ grepFrom pattern (turn pattern s chunk).1 chunks

/-- `grep`. -/
def grep (pattern : List UInt8) (chunks : List (List UInt8)) : List (List UInt8) :=
  grepFrom pattern .start chunks

/-- Each read returns between one byte and as many as were asked for. -/
def Fits (pattern : List UInt8) : Loop → List (List UInt8) → Prop
  | _, [] => True
  | s, chunk :: chunks =>
    0 < chunk.length ∧ chunk.length ≤ s.request ∧ Fits pattern (turn pattern s chunk).1 chunks

/-- The lines of the input that match. -/
def matching (pattern input : List UInt8) : List (List UInt8) :=
  (records (b '\n') input).filter fun l => match_pattern pattern l.dropLast

/-- A read that a newline follows in a later one has a newline itself. -/
def Whole : List (List UInt8) → Prop
  | [] => True
  | chunk :: chunks => (b '\n' ∈ chunks.flatten → b '\n' ∈ chunk) ∧ Whole chunks

/-! ## The lines of the buffer -/

variable {pattern pre l s post buf : List UInt8} {c : UInt8} {m p : ℕ}

theorem newline_ne (hc : c ≠ b '\n') (hm : pre.length < m) :
    newline (pre ++ c :: post) m pre.length =
      newline (pre ++ [c] ++ post) m (pre ++ [c]).length := by
  rw [newline, if_pos]
  · simp
  · simp [hm, hc]

/-- The search passes over bytes that are no newline. -/
theorem newline_skip (hl : b '\n' ∉ l) (hm : pre.length + l.length ≤ m) :
    newline (pre ++ l ++ post) m pre.length =
      newline (pre ++ l ++ post) m (pre ++ l).length := by
  induction l generalizing pre with
  | nil => simp
  | cons c l ih =>
    simp only [mem_cons, not_or] at hl
    rw [length_cons] at hm
    have hskip : newline (pre ++ [c] ++ l ++ post) m (pre ++ [c]).length =
        newline (pre ++ [c] ++ l ++ post) m (pre ++ [c] ++ l).length := ih hl.2 (by simp; omega)
    rw [append_assoc, cons_append, newline_ne (Ne.symm hl.1) (by omega)]
    simpa using hskip

/-- The search ends at the first newline. -/
theorem newline_line (hl : b '\n' ∉ l) (hm : pre.length + l.length ≤ m) :
    newline (pre ++ l ++ b '\n' :: post) m pre.length = (pre ++ l).length := by
  rw [newline_skip hl hm, newline, if_neg]
  simp

/-- Without one it ends behind the last byte read. -/
theorem newline_none (hs : b '\n' ∉ s) (hm : m = (pre ++ s).length) :
    newline (pre ++ s ++ post) m pre.length = m := by
  subst hm
  rw [newline_skip hs (by simp), newline, if_neg (by simp)]

theorem set_middle (pre post : List UInt8) (x y : UInt8) :
    (pre ++ x :: post).set pre.length y = pre ++ y :: post := by simp

theorem cstr_line (hl : 0 ∉ l) : cstr (pre ++ l ++ 0 :: post) pre.length = l := by
  have hne : ∀ x ∈ l, (decide (x ≠ 0)) = true := by
    intro x hx
    exact decide_eq_true fun h => hl (h ▸ hx)
  rw [cstr, append_assoc, drop_left, takeWhile_append_of_pos hne]
  simp

theorem slice_line : slice (pre ++ l ++ post) pre.length (pre ++ l).length = l := by
  rw [slice, take_left, drop_left]

/-- **The loop over the lines** writes the records that match, and comes to the end of the last. -/
theorem scan_eq (hs : 0 ∉ s) (hbuf : buf = pre ++ s ++ post) (hp : p = pre.length)
    (hm : m = (pre ++ s).length) :
    scan pattern m buf p =
      ⟨buf, p + (records (b '\n') s).flatten.length, matching pattern s⟩ := by
  induction s using byRecord (b '\n') generalizing pre p with
  | rest s h =>
    subst hbuf hp
    have hrec : records (b '\n') s = [] := records_of_notMem h
    rw [scan]
    simp only [newline_none h hm, le_refl, if_true, matching, hrec, flatten_nil,
      length_nil, Nat.add_zero, filter_nil, ite_self]
  | line l s h ih =>
    have hbuf' : buf = (pre ++ (l ++ [b '\n'])) ++ s ++ post := by simp [hbuf]
    have hl : 0 ∉ l := fun h0 => hs (mem_append_left _ h0)
    have hs' : 0 ∉ s := fun h0 => hs (mem_append_right _ (mem_cons_of_mem _ h0))
    have hm' : m = (pre ++ (l ++ [b '\n']) ++ s).length := by simp [hm]
    have hq : newline buf m p = (pre ++ l).length := by
      have hfirst : newline (pre ++ l ++ b '\n' :: (s ++ post)) m pre.length = (pre ++ l).length :=
        newline_line h (by simp [hm])
      simpa [hbuf, hp] using hfirst
    have hcut : buf.set (pre ++ l).length 0 = pre ++ l ++ 0 :: (s ++ post) := by
      rw [hbuf, ← set_middle (pre ++ l) (s ++ post) (b '\n') 0]
      simp
    have hback : (buf.set (pre ++ l).length 0).set (pre ++ l).length (b '\n') = buf := by
      rw [hcut, set_middle, hbuf]
      simp
    have hfound : cstr (buf.set (pre ++ l).length 0) p = l := by
      rw [hcut, hp, cstr_line hl]
    have hslice : slice buf p ((pre ++ l).length + 1) = l ++ [b '\n'] := by
      have hline : slice (pre ++ (l ++ [b '\n']) ++ (s ++ post)) pre.length
          (pre ++ (l ++ [b '\n'])).length = l ++ [b '\n'] := slice_line
      simpa [hbuf, hp, Nat.add_assoc] using hline
    have hrest := ih (p := (pre ++ l).length + 1) hs' hbuf' (by simp [Nat.add_assoc]) hm'
    have hlt : p < m := by simp [hm, hp]
    have hqm : ¬m ≤ (pre ++ l).length := by simp [hm]
    rw [scan]
    simp only [hlt, if_true, hq, hqm, if_false, hback, hfound, hslice, hrest]
    ext1
    · rfl
    · simp [records_line h, hp]
      omega
    · simp only [matching, records_line h, filter_cons, dropLast_concat]
      split_ifs <;> rfl

/-! ## The rest of the buffer -/

theorem length_move (buf : List UInt8) (p n : ℕ) : (move buf p n).length = buf.length := by
  induction n with
  | zero => rfl
  | succ n ih =>
    rw [move, range_succ, foldl_append]
    simpa [move] using ih

/-- Every byte is read before it is overwritten. -/
theorem getD_move (hp : p + m ≤ buf.length) (i : ℕ) :
    (move buf p m).getD i 0 = if i < m then buf.getD (p + i) 0 else buf.getD i 0 := by
  induction m generalizing i with
  | zero => simp [move]
  | succ n ih =>
    have hstep : move buf p (n + 1) =
        (move buf p n).set n ((move buf p n).getD (p + n) 0) := by
      rw [move, range_succ, foldl_append]
      rfl
    have hlen : n < (move buf p n).length := by
      rw [length_move]
      omega
    rw [hstep, ih (by omega), if_neg (by omega)]
    rcases eq_or_ne i n with rfl | hne
    · simp [hlen]
    · have hout : ((move buf p n).set n (buf.getD (p + n) 0)).getD i 0 =
        (move buf p n).getD i 0 := by
        simp [List.getD, getElem?_set_ne hne.symm]
      rw [hout, ih (by omega) i]
      by_cases hi : i < n
      · rw [if_pos hi, if_pos (by omega)]
      · rw [if_neg hi, if_neg (by omega)]

theorem take_move (hp : p + m ≤ buf.length) : (move buf p m).take m = slice buf p (p + m) := by
  have hlen : m ≤ (move buf p m).length := by
    rw [length_move]
    omega
  refine ext_getElem ?_ fun i hi hi' => ?_
  · simp [slice, length_move]
    omega
  · have him : i < m := by
      rw [length_take] at hi
      omega
    have hget := getD_move hp i
    rw [if_pos him, getD_eq_getElem _ _ (by omega), getD_eq_getElem _ _ (by omega)]
      at hget
    simpa [slice] using hget

/-! ## One turn -/

/-- The buffer holds these bytes, and there is room for another. -/
structure Holds (s : Loop) (held : List UInt8) : Prop where
  size : s.buf.length = bufLen
  bytes : s.buf.take s.m = held
  count : s.m = held.length
  room : held.length + 1 < bufLen

/-- What a turn keeps of the bytes in the buffer. -/
def keep (t : List UInt8) : List UInt8 := if b '\n' ∈ t then remainder (b '\n') t else []

theorem holds_start : Holds .start [] := ⟨by simp [Loop.start], rfl, rfl, by decide⟩

variable {st : Loop} {held chunk : List UInt8} {chunks : List (List UInt8)}

/-- **One turn** writes the lines in the buffer that match, and keeps what follows the last. -/
theorem turn_eq (h : Holds st held) (hreq : chunk.length ≤ st.request)
    (hnul : 0 ∉ held ++ chunk) :
    (turn pattern st chunk).2 = matching pattern (held ++ chunk) ∧
      Holds (turn pattern st chunk).1 (keep (held ++ chunk)) := by
  obtain ⟨hsize, hbytes, hcount, hroom⟩ := h
  rw [Loop.request, hcount] at hreq
  have hm : st.m + chunk.length = (held ++ chunk).length := by simp [hcount]
  have hfit : (held ++ chunk).length < bufLen := by
    rw [length_append]
    omega
  -- behind the bytes there is at least the terminator
  obtain ⟨post, hpost⟩ : ∃ post, (stored st.buf st.m chunk).set (st.m + chunk.length) 0 =
      [] ++ (held ++ chunk) ++ post := by
    refine ⟨((stored st.buf st.m chunk).set (st.m + chunk.length) 0).drop (st.m + chunk.length), ?_⟩
    rw [nil_append, stored, hbytes, hm, set_append_right _ _ le_rfl, drop_left]
  have hlen : ([] ++ (held ++ chunk) ++ post).length = bufLen := by
    rw [← hpost, length_set, stored]
    simp only [length_append, length_take, length_drop]
    omega
  have hscan : scan pattern (st.m + chunk.length) ([] ++ (held ++ chunk) ++ post) 0 =
      ⟨[] ++ (held ++ chunk) ++ post, 0 + (records (b '\n') (held ++ chunk)).flatten.length,
        matching pattern (held ++ chunk)⟩ := scan_eq hnul rfl rfl hm
  have hsum := length_flatten_records (b '\n') (held ++ chunk)
  simp only [turn, hpost, hscan, keep, Nat.zero_add]
  simp only [hm, nil_append] at hlen ⊢
  by_cases hnl : b '\n' ∈ held ++ chunk
  · have hless := length_remainder_lt hnl
    have hleft : (held ++ chunk).length - (records (b '\n') (held ++ chunk)).flatten.length =
        (remainder (b '\n') (held ++ chunk)).length := by omega
    have hend : (records (b '\n') (held ++ chunk)).flatten.length +
        (remainder (b '\n') (held ++ chunk)).length ≤ (held ++ chunk ++ post).length := by
      rw [hsum, hlen]
      exact hfit.le
    rw [if_neg (by omega), if_pos (by omega), if_pos hnl, hleft]
    refine ⟨rfl, by rw [length_move, hlen], ?_, rfl, by omega⟩
    rw [take_move hend, hsum, slice, take_left]
    nth_rewrite 2 [← flatten_records_append_remainder (b '\n') (held ++ chunk)]
    rw [drop_left]
  · rw [records_of_notMem hnl, flatten_nil, length_nil, if_pos rfl, if_neg hnl]
    exact ⟨rfl, hlen, rfl, rfl, by decide⟩

/-! ## All turns -/

/-- The lines that are offered to the matcher. -/
def sent : List UInt8 → List (List UInt8) → List (List UInt8)
  | _, [] => []
  | held, chunk :: chunks =>
    records (b '\n') (held ++ chunk) ++ sent (keep (held ++ chunk)) chunks

theorem notMem_append {x : UInt8} {s t : List UInt8} (hs : x ∉ s) (ht : x ∉ t) : x ∉ s ++ t := by
  rw [mem_append, not_or]
  exact ⟨hs, ht⟩

theorem notMem_keep {x : UInt8} {t : List UInt8} (h : x ∉ t) : x ∉ keep t := by
  unfold keep
  split_ifs
  · intro hx
    rw [← flatten_records_append_remainder (b '\n') t] at h
    exact h (mem_append_right _ hx)
  · exact not_mem_nil

/-- **The loop writes what matches of the lines it offers.** -/
theorem grepFrom_eq (h : Holds st held) (hfits : Fits pattern st chunks) (hheld : 0 ∉ held)
    (hnul : 0 ∉ chunks.flatten) : grepFrom pattern st chunks =
      (sent held chunks).filter fun l => match_pattern pattern l.dropLast := by
  induction chunks generalizing st held with
  | nil => rfl
  | cons chunk chunks ih =>
    obtain ⟨hpos, hreq, hfits⟩ := hfits
    rw [flatten_cons, mem_append, not_or] at hnul
    have hboth : 0 ∉ held ++ chunk := notMem_append hheld hnul.1
    have hturn : (turn pattern st chunk).2 = matching pattern (held ++ chunk) ∧
        Holds (turn pattern st chunk).1 (keep (held ++ chunk)) := turn_eq h hreq hboth
    obtain ⟨hwrites, hholds⟩ := hturn
    rw [grepFrom, if_neg hpos.ne', hwrites, ih hholds hfits (notMem_keep hboth) hnul.2, sent,
      filter_append, matching]

/-- The buffer does not depend on the pattern, and so neither does what may be read. -/
theorem Fits.of_pattern {pattern' : List UInt8} {st' : Loop} (h : Holds st held)
    (h' : Holds st' held) (hfits : Fits pattern st chunks) (hheld : 0 ∉ held)
    (hnul : 0 ∉ chunks.flatten) : Fits pattern' st' chunks := by
  induction chunks generalizing st st' held with
  | nil => trivial
  | cons chunk chunks ih =>
    obtain ⟨hpos, hreq, hfits⟩ := hfits
    rw [flatten_cons, mem_append, not_or] at hnul
    have hboth : 0 ∉ held ++ chunk := notMem_append hheld hnul.1
    have hreq' : chunk.length ≤ st'.request := by
      rw [Loop.request, h'.count, ← h.count]
      exact hreq
    exact ⟨hpos, hreq', ih (turn_eq h hreq hboth).2 (turn_eq h' hreq' hboth).2 hfits
      (notMem_keep hboth) hnul.2⟩

theorem length_sent_le (held : List UInt8) (chunks : List (List UInt8)) :
    (sent held chunks).flatten.length ≤
      (records (b '\n') (held ++ chunks.flatten)).flatten.length := by
  induction chunks generalizing held with
  | nil => simp [sent]
  | cons chunk chunks ih =>
    have hrest := ih (keep (held ++ chunk))
    rw [sent, flatten_cons, ← append_assoc]
    by_cases hnl : b '\n' ∈ held ++ chunk
    · rw [keep, if_pos hnl] at hrest ⊢
      rw [records_append _ (held ++ chunk) chunks.flatten, flatten_append,
        flatten_append, length_append, length_append]
      exact Nat.add_le_add_left hrest _
    · rw [keep, if_neg hnl] at hrest ⊢
      rw [records_of_notMem hnl, nil_append]
      exact hrest.trans (length_flatten_records_le _ _ _)

theorem whole_of_notMem (h : b '\n' ∉ chunks.flatten) : Whole chunks := by
  induction chunks with
  | nil => trivial
  | cons chunk chunks ih =>
    rw [flatten_cons, mem_append, not_or] at h
    exact ⟨fun hnl => absurd hnl h.2, ih h.2⟩

/-- **The lines of the input are offered** exactly if no read before a newline is without one. -/
theorem sent_eq_iff (hheld : b '\n' ∉ held) (hpos : ∀ chunk ∈ chunks, 0 < chunk.length) :
    sent held chunks = records (b '\n') (held ++ chunks.flatten) ↔ Whole chunks := by
  induction chunks generalizing held with
  | nil => simp [sent, Whole, records_of_notMem hheld]
  | cons chunk chunks ih =>
    have hpos' : ∀ c ∈ chunks, 0 < c.length := fun c hc => hpos c (mem_cons_of_mem _ hc)
    rw [sent, flatten_cons, ← append_assoc, Whole]
    by_cases hnl : b '\n' ∈ chunk
    · -- what follows the last newline is kept for the next read
      have hkeep : keep (held ++ chunk) = remainder (b '\n') (held ++ chunk) :=
        if_pos (mem_append_right _ hnl)
      rw [hkeep, records_append _ (held ++ chunk), append_cancel_left_eq,
        ih (notMem_remainder _ _) hpos']
      simp [hnl]
    · -- all of the buffer is thrown away
      have hnone : b '\n' ∉ held ++ chunk := notMem_append hheld hnl
      rw [keep, if_neg hnone, records_of_notMem hnone, nil_append]
      by_cases hlater : b '\n' ∈ chunks.flatten
      · -- and a line that ends later is cut short by it
        have hless := length_sent_le [] chunks
        have hline := length_flatten_records_append (s := held ++ chunk) hlater
        have hlen := hpos chunk mem_cons_self
        rw [nil_append] at hless
        rw [length_append] at hline
        refine iff_of_false (fun heq => ?_) fun hw => hnl (hw.1 hlater)
        rw [heq, hline] at hless
        omega
      · have hnone' : b '\n' ∉ held ++ chunk ++ chunks.flatten := notMem_append hnone hlater
        have hsent := (ih not_mem_nil hpos').2 (whole_of_notMem hlater)
        rw [hsent, nil_append, records_of_notMem hlater, records_of_notMem hnone']
        exact iff_of_true rfl ⟨fun h => absurd h hlater, whole_of_notMem hlater⟩

theorem Fits.pos (h : Fits pattern st chunks) : ∀ chunk ∈ chunks, 0 < chunk.length := by
  induction chunks generalizing st with
  | nil => simp
  | cons chunk chunks ih =>
    intro c hc
    rcases mem_cons.1 hc with rfl | hc
    · exact h.1
    · exact ih h.2.2 c hc

/-- The empty pattern matches every line. -/
theorem match_pattern_nil (text : List UInt8) : match_pattern [] text = true := by
  rw [match_pattern, if_neg (by decide), matchfrom]
  simp

/-- **The output of grep and the reads.**  For an input without `NUL`s, divided in any way into
reads of between one byte and as many as were asked for: `grep` writes, for every pattern, the
lines of the input that match, whole, once each and in order, exactly if every read that a newline
follows in a later one has a newline itself. -/
theorem grep_writes_iff (p : CString) (hfits : Fits p.bytes .start chunks)
    (hnul : 0 ∉ chunks.flatten) :
    (∀ p' : CString, grep p'.bytes chunks = matching p'.bytes chunks.flatten) ↔ Whole chunks := by
  have hoffers : ∀ p' : CString, grep p'.bytes chunks =
      (sent [] chunks).filter fun l => match_pattern p'.bytes l.dropLast := fun _ =>
    grepFrom_eq holds_start (hfits.of_pattern holds_start holds_start not_mem_nil hnul)
      not_mem_nil hnul
  rw [← sent_eq_iff not_mem_nil hfits.pos, nil_append]
  constructor
  · intro hall
    have hempty := hall ⟨[], not_mem_nil⟩
    rw [hoffers] at hempty
    simpa [matching, match_pattern_nil] using hempty
  · intro heq p
    rw [hoffers, heq, matching]

/-- What the first read leaves of the buffer. -/
theorem request_turn_start {chunk : List UInt8} (hreq : chunk.length ≤ Loop.start.request)
    (hnul : 0 ∉ chunk) :
    (turn pattern .start chunk).1.request = bufLen - (keep chunk).length - 1 := by
  have hkept : Holds (turn pattern .start chunk).1 (keep ([] ++ chunk)) :=
    (turn_eq holds_start hreq hnul).2
  rw [Loop.request, hkept.count, nil_append]

/-- The second line is completed by the second read. -/
theorem grep_writes_completed : grep [b 'c'] [[b 'a', b '\n', b 'c'], [b 'd', b '\n']] =
    matching [b 'c'] [b 'a', b '\n', b 'c', b 'd', b '\n'] := by
  have hfits : Fits [b 'c'] .start [[b 'a', b '\n', b 'c'], [b 'd', b '\n']] := by
    refine ⟨by decide, by decide, by decide, ?_, trivial⟩
    rw [request_turn_start (by decide) (by decide)]
    decide
  have hwhole : Whole [[b 'a', b '\n', b 'c'], [b 'd', b '\n']] :=
    ⟨fun _ => by decide, fun h => absurd h (by decide), trivial⟩
  exact (grep_writes_iff ⟨[b 'c'], by decide⟩ hfits (by decide)).2 hwhole ⟨[b 'c'], by decide⟩

/-- The start of a line that comes with a read of its own is lost. -/
theorem grep_loses_start : Fits [b 'a'] .start [[b 'a'], [b 'b', b '\n']] ∧
    grep [b 'a'] [[b 'a'], [b 'b', b '\n']] = [] ∧
    matching [b 'a'] [b 'a', b 'b', b '\n'] = [[b 'a', b 'b', b '\n']] := by
  have hfits : Fits [b 'a'] .start [[b 'a'], [b 'b', b '\n']] := by
    refine ⟨by decide, by decide, by decide, ?_, trivial⟩
    rw [request_turn_start (by decide) (by decide)]
    decide
  have hoffers := grepFrom_eq holds_start hfits not_mem_nil (by decide)
  have hlost : match_pattern [b 'a'] [b 'b'] = false := by
    simp [match_pattern, matchfrom, matchhere, b]
  have hfound : match_pattern [b 'a'] [b 'a', b 'b'] = true := by
    simp [match_pattern, matchfrom, matchhere, b]
  refine ⟨hfits, ?_, ?_⟩
  · rw [grep, hoffers]
    have hsent : sent [] [[b 'a'], [b 'b', b '\n']] = [[b 'b', b '\n']] := by decide
    simp [hsent, hlost]
  · have hrec : records (b '\n') [b 'a', b 'b', b '\n'] = [[b 'a', b 'b', b '\n']] := by decide
    simp [matching, hrec, hfound]

end Xv6.User.Grep
