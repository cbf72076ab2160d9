import Xv6.Lib.Machine

/-!
# Line editing on the console

The input buffer of `crates/console/src/lib.rs`: a ring of 128 bytes with three counters that
only the reader (`r`), a committed line (`w`) and typing or erasing (`e`) move.  The counters
are `usize` under overflow checks, so an addition that does not fit stops the machine.

* `typed`, `consoleintr` — the interrupt handler.
* `Editor` — what a line editor is: the bytes committed so far and the line being edited.
* `Shows` — the ring buffer holds what the editor does; `Shows.typed`, `Shows.run` — it goes on
  doing so.
* `line_editing` — the counters, the line and the committed bytes over every run.
-/

namespace Xv6.Drivers.Console

open Lib List

abbrev INPUT_BUF_SIZE : ℕ := 128

/-- `struct Input`. -/
structure Input where
  buf : ℕ → UInt8
  /-- Read. -/
  r : ℕ
  /-- Write. -/
  w : ℕ
  /-- Edit. -/
  e : ℕ

/-- `INPUT` before the first interrupt. -/
def INPUT : Input := ⟨fun _ => 0, 0, 0, 0⟩

/-- `a + b` on `usize`, `none` where it panics. -/
def addUsize (a b : ℕ) : Option ℕ := if a + b < 2 ^ 64 then some (a + b) else none

/-- `a.wrapping_sub(b)` on `usize`. -/
def wrappingSub (a b : ℕ) : ℕ := (a + 2 ^ 64 - b) % 2 ^ 64

/-- The byte stored for a character: `\r` becomes `\n`, others lose their upper bits. -/
def byteOf (c : ℤ) : UInt8 := if c = 13 then 10 else UInt8.ofNat c.toNat

/-- The arm of `consoleintr` that stores a character. -/
def store (s : Input) (ch : UInt8) : Option Input := do
  let buf := Function.update s.buf (s.e % INPUT_BUF_SIZE) ch
  let e ← addUsize s.e 1
  if ch = 10 ∨ ch = 4 then some { s with buf := buf, e := e, w := e }
  else do
    let full ← addUsize s.r INPUT_BUF_SIZE
    if e = full then some { s with buf := buf, e := e, w := e }
      else some { s with buf := buf, e := e }

/-- One turn of the loop of `consoleintr`. -/
def typed (s : Input) (c : ℤ) : Option Input :=
  if c = 3 then some s
  else if c = 8 ∨ c = 127 then
    -- `INPUT.e -= 1` is checked as well
    if s.e ≠ s.w then if s.e = 0 then none else some { s with e := s.e - 1 }
    else some s
  else if c ≠ 0 ∧ wrappingSub s.e s.r < INPUT_BUF_SIZE then store s (byteOf c)
  else some s

/-- `consoleintr`, given what `getc` returns from call to call. -/
def consoleintr : Input → List ℤ → Option Input
  | s, [] => some s
  | s, c :: cs => if c < 0 then some s else (typed s c).bind fun s' => consoleintr s' cs

/-- An interrupt, or a reader that takes some of the committed bytes. -/
inductive Act where
  | intr (cs : List ℤ)
  | advance (n : ℕ)

def step (s : Input) : Act → Option Input
  | .intr cs => consoleintr s cs
  | .advance n => if s.r + n ≤ s.w then some { s with r := s.r + n } else none

/-- A run from one state to another. -/
def run : Input → List Act → Option Input
  | s, [] => some s
  | s, a :: as => (step s a).bind fun s' => run s' as

/-! ## The line editor -/

/-- A line editor: the bytes of the lines committed so far, how many of them have been read, and
the line being edited. -/
structure Editor where
  committed : List UInt8
  taken : ℕ
  pending : List UInt8

namespace Editor

def empty : Editor := ⟨[], 0, []⟩

/-- The bytes that take up room. -/
def size (d : Editor) : ℕ := d.committed.length - d.taken + d.pending.length

/-- A character joins the line; at the end of a line, or if there is no more room, the line is
committed. -/
def accept (d : Editor) (ch : UInt8) : Editor :=
  if ch = 10 ∨ ch = 4 ∨ d.size + 1 = INPUT_BUF_SIZE then
    { d with committed := d.committed ++ (d.pending ++ [ch]), pending := [] }
  else { d with pending := d.pending ++ [ch] }

/-- A key: backspace removes the last character of the line; zero and `Ctrl-C` are no characters;
those beyond the capacity are dropped. -/
def key (d : Editor) (c : ℤ) : Editor :=
  if c = 8 ∨ c = 127 then { d with pending := d.pending.dropLast }
  else if c = 0 ∨ c = 3 then d
  else if d.size < INPUT_BUF_SIZE then d.accept (byteOf c)
  else d

/-- The keys of one interrupt. -/
def keys (d : Editor) : List ℤ → Editor
  | [] => d
  | c :: cs => if c < 0 then d else (d.key c).keys cs

def step (d : Editor) : Act → Editor
  | .intr cs => d.keys cs
  | .advance n => { d with taken := d.taken + n }

def run (d : Editor) (as : List Act) : Editor := as.foldl step d

end Editor

/-! ## The ring buffer shows the editor -/

/-- The ring buffer holds the unread bytes and the line of an editor. -/
structure Shows (s : Input) (d : Editor) : Prop where
  r : s.r = d.taken
  w : s.w = d.committed.length
  e : s.e = d.committed.length + d.pending.length
  /-- Only committed bytes are read. -/
  taken : d.taken ≤ d.committed.length
  /-- They fit. -/
  room : s.e ≤ s.r + INPUT_BUF_SIZE
  /-- The counter has not overflowed. -/
  fits : s.e < 2 ^ 64
  bytes : ∀ k, s.r ≤ k → k < s.e → s.buf (k % INPUT_BUF_SIZE) = (d.committed ++ d.pending).getD k 0

namespace Shows

variable {s s' : Input} {d : Editor}

theorem init : Shows INPUT .empty where
  r := rfl
  w := rfl
  e := rfl
  taken := le_rfl
  room := Nat.zero_le _
  fits := by decide
  bytes k _ hk := absurd hk (Nat.not_lt_zero k)

theorem size (h : Shows s d) : s.e - s.r = d.size := by
  have := h.taken
  rw [h.e, h.r, Editor.size]
  omega

theorem wrappingSub_eq (h : Shows s d) : wrappingSub s.e s.r = d.size := by
  have hle : s.r ≤ s.e := by
    have := h.taken
    rw [h.e, h.r]
    omega
  have hfits := h.fits
  rw [← h.size, wrappingSub]
  omega

/-- Different places of the window are different cells. -/
theorem mod_ne {k r e : ℕ} (hr : r ≤ k) (hk : k < e) (he : e < r + INPUT_BUF_SIZE) :
    k % INPUT_BUF_SIZE ≠ e % INPUT_BUF_SIZE := by
  change k % 128 ≠ e % 128
  change e < r + 128 at he
  omega

/-- The bytes after a character is stored behind the others. -/
theorem bytes_store (h : Shows s d) (hroom : d.size < INPUT_BUF_SIZE) (ch : UInt8) (k : ℕ)
    (hr : s.r ≤ k) (hk : k < s.e + 1) :
    Function.update s.buf (s.e % INPUT_BUF_SIZE) ch (k % INPUT_BUF_SIZE) =
      (d.committed ++ (d.pending ++ [ch])).getD k 0 := by
  have hlen : (d.committed ++ d.pending).length = s.e := by rw [length_append, h.e]
  have hsize := h.size
  rw [← append_assoc]
  rcases Nat.lt_succ_iff_lt_or_eq.1 hk with hlt | heq
  · rw [Function.update_of_ne (mod_ne hr hlt (by omega)), h.bytes k hr hlt]
    exact (getD_append _ _ _ _ (by omega)).symm
  · rw [heq, Function.update_self, getD_append_right _ _ _ _ (by omega), hlen, Nat.sub_self]
    rfl

theorem pend (h : Shows s d) (hroom : d.size < INPUT_BUF_SIZE) (hfits : s.e + 1 < 2 ^ 64)
    (ch : UInt8) :
    Shows { s with buf := Function.update s.buf (s.e % INPUT_BUF_SIZE) ch, e := s.e + 1 }
      { d with pending := d.pending ++ [ch] } where
  r := h.r
  w := h.w
  e := by
    change s.e + 1 = d.committed.length + (d.pending ++ [ch]).length
    rw [h.e, length_append, length_singleton, Nat.add_assoc]
  taken := h.taken
  room := by
    have hsize := h.size
    change s.e + 1 ≤ s.r + _
    omega
  fits := hfits
  bytes := h.bytes_store hroom ch

theorem commit (h : Shows s d) : Shows { s with w := s.e }
    { d with committed := d.committed ++ d.pending, pending := [] } where
  r := h.r
  w := by
    change s.e = _
    rw [h.e, length_append]
  e := by
    change s.e = _
    rw [h.e, length_append, length_nil, Nat.add_zero]
  taken := by
    rw [length_append]
    exact le_trans h.taken (Nat.le_add_right _ _)
  room := h.room
  fits := h.fits
  bytes k hr hk := by
    rw [List.append_nil]
    exact h.bytes k hr hk

theorem store (h : Shows s d) (hroom : d.size < INPUT_BUF_SIZE) {ch : UInt8}
    (hs : store s ch = some s') : Shows s' (d.accept ch) := by
  obtain ⟨e, he, hs⟩ := Option.bind_eq_some_iff.1 hs
  obtain ⟨hfits, rfl⟩ : s.e + 1 < 2 ^ 64 ∧ e = s.e + 1 := by
    unfold addUsize at he
    split_ifs at he with hlt
    exact ⟨hlt, (Option.some.inj he).symm⟩
  have hpend := h.pend hroom hfits ch
  have hsize := h.size
  have hle : s.r ≤ s.e := by
    have := h.taken
    rw [h.e, h.r]
    omega
  unfold Editor.accept
  by_cases hend : ch = 10 ∨ ch = 4
  · rw [if_pos hend] at hs
    cases hs
    rw [if_pos (by tauto)]
    exact hpend.commit
  · rw [if_neg hend] at hs
    obtain ⟨full, hfull, hs⟩ := Option.bind_eq_some_iff.1 hs
    obtain rfl : full = s.r + INPUT_BUF_SIZE := by
      unfold addUsize at hfull
      split_ifs at hfull
      exact (Option.some.inj hfull).symm
    by_cases hlast : s.e + 1 = s.r + INPUT_BUF_SIZE
    · rw [if_pos hlast] at hs
      cases hs
      rw [if_pos (Or.inr (Or.inr (by omega)))]
      exact hpend.commit
    · rw [if_neg hlast] at hs
      cases hs
      have hmore : ¬(ch = 10 ∨ ch = 4 ∨ d.size + 1 = INPUT_BUF_SIZE) := by
        rintro (hc | hc | hc)
        · exact hend (Or.inl hc)
        · exact hend (Or.inr hc)
        · omega
      rw [if_neg hmore]
      exact hpend

/-- Backspace stops at the commit point. -/
theorem erase (h : Shows s d) (he : s.e ≠ s.w) : Shows { s with e := s.e - 1 }
    { d with pending := d.pending.dropLast } where
  r := h.r
  w := h.w
  e := by
    have hlen := h.e
    have hw := h.w
    change s.e - 1 = d.committed.length + d.pending.dropLast.length
    rw [length_dropLast]
    omega
  taken := h.taken
  room := le_trans (Nat.sub_le _ _) h.room
  fits := lt_of_le_of_lt (Nat.sub_le _ _) h.fits
  bytes k hr hk := by
    change k < s.e - 1 at hk
    have hlen := h.e
    have hw := h.w
    rw [h.bytes k hr (by omega)]
    have hne : d.pending ≠ [] := fun hnil => he (by rw [h.e, h.w, hnil]; rfl)
    conv_lhs => rw [← dropLast_append_getLast hne, ← append_assoc]
    rw [getD_append]
    rw [length_append, length_dropLast]
    omega

/-- **One character.** -/
theorem typed (h : Shows s d) {c : ℤ} (hs : typed s c = some s') : Shows s' (d.key c) := by
  unfold Console.typed at hs
  unfold Editor.key
  by_cases h3 : c = 3
  · rw [if_pos h3] at hs
    cases hs
    rw [if_neg (by omega), if_pos (Or.inr h3)]
    exact h
  rw [if_neg h3] at hs
  by_cases hback : c = 8 ∨ c = 127
  · rw [if_pos hback] at hs ⊢
    split_ifs at hs with hne h0
    · cases hs
      exact h.erase hne
    · -- nothing is uncommitted, and nothing goes
      cases hs
      have hnil : d.pending = [] := by
        have := h.e
        have := h.w
        rw [← length_eq_zero_iff]
        omega
      have hd : { d with pending := d.pending.dropLast } = d := by rw [hnil, dropLast_nil, ← hnil]
      rw [hd]
      exact h
  · rw [if_neg hback] at hs ⊢
    rw [h.wrappingSub_eq] at hs
    by_cases h0 : c = 0
    · rw [if_neg (by tauto)] at hs
      cases hs
      rw [if_pos (Or.inl h0)]
      exact h
    · rw [if_neg (by tauto)]
      by_cases hroom : d.size < INPUT_BUF_SIZE
      · rw [if_pos ⟨h0, hroom⟩] at hs
        rw [if_pos hroom]
        exact h.store hroom hs
      · rw [if_neg (by tauto)] at hs
        cases hs
        rw [if_neg hroom]
        exact h

theorem consoleintr (h : Shows s d) {cs : List ℤ} (hs : consoleintr s cs = some s') :
    Shows s' (d.keys cs) := by
  induction cs generalizing s d with
  | nil =>
    cases hs
    exact h
  | cons c cs ih =>
    unfold Console.consoleintr at hs
    unfold Editor.keys
    split_ifs at hs ⊢ with hneg
    · cases hs
      exact h
    · obtain ⟨s₁, hc, hs⟩ := Option.bind_eq_some_iff.1 hs
      exact ih (h.typed hc) hs

theorem advance (h : Shows s d) {n : ℕ} (hn : s.r + n ≤ s.w) :
    Shows { s with r := s.r + n } { d with taken := d.taken + n } where
  r := by
    change s.r + n = d.taken + n
    rw [h.r]
  w := h.w
  e := h.e
  taken := by
    change d.taken + n ≤ d.committed.length
    rw [← h.r, ← h.w]
    exact hn
  room := by
    have := h.room
    change s.e ≤ s.r + n + _
    omega
  fits := h.fits
  bytes k hr hk := h.bytes k (le_trans (Nat.le_add_right _ _) hr) hk

theorem step (h : Shows s d) {a : Act} (hs : step s a = some s') : Shows s' (d.step a) := by
  cases a with
  | intr cs => exact h.consoleintr hs
  | advance n =>
    simp only [Console.step] at hs
    split_ifs at hs with hn
    cases hs
    exact h.advance hn

/-- **A whole run.** -/
theorem run (h : Shows s d) {as : List Act} (hs : run s as = some s') : Shows s' (d.run as) := by
  induction as generalizing s d with
  | nil =>
    cases hs
    exact h
  | cons a as ih =>
    obtain ⟨s₁, ha, hs⟩ := Option.bind_eq_some_iff.1 hs
    exact ih (h.step ha) hs

theorem le_w (h : Shows s d) : s.r ≤ s.w := by
  rw [h.r, h.w]
  exact h.taken

theorem le_e (h : Shows s d) : s.w ≤ s.e := by
  rw [h.w, h.e]
  exact Nat.le_add_right _ _

/-- The line is in the buffer from the commit point on. -/
theorem line (h : Shows s d) :
    ((List.range (s.e - s.w)).map fun i => s.buf ((s.w + i) % INPUT_BUF_SIZE)) = d.pending := by
  have hw := h.w
  have he := h.e
  apply ext_getElem
  · simp only [length_map, length_range]
    omega
  · intro i h₁ h₂
    have hr := h.le_w
    simp only [getElem_map, getElem_range]
    rw [h.bytes _ (by omega) (by omega), getD_append_right _ _ _ _ (by omega), hw,
      Nat.add_sub_cancel_left, getD_eq_getElem _ _ h₂]

/-- Nothing panics below the largest counter. -/
theorem typed_isSome (h : Shows s d) (hlim : s.r + INPUT_BUF_SIZE < 2 ^ 64) (c : ℤ) :
    ∃ s', Console.typed s c = some s' ∧ s'.r = s.r := by
  unfold Console.typed
  rw [h.wrappingSub_eq]
  have hwe := h.le_e
  split_ifs with h3 hback hne h0 hstore
  · exact ⟨s, rfl, rfl⟩
  · omega
  · exact ⟨_, rfl, rfl⟩
  · exact ⟨s, rfl, rfl⟩
  · have hsize := h.size
    have he : addUsize s.e 1 = some (s.e + 1) := if_pos (by omega)
    have hfull : addUsize s.r INPUT_BUF_SIZE = some (s.r + INPUT_BUF_SIZE) := if_pos hlim
    unfold Console.store
    rw [he, hfull]
    simp only [Option.bind_eq_bind, Option.bind_some]
    split_ifs
    · exact ⟨_, rfl, rfl⟩
    · exact ⟨_, rfl, rfl⟩
    · exact ⟨_, rfl, rfl⟩
  · exact ⟨s, rfl, rfl⟩

theorem consoleintr_isSome (h : Shows s d) (hlim : s.r + INPUT_BUF_SIZE < 2 ^ 64) (cs : List ℤ) :
    ∃ s', Console.consoleintr s cs = some s' := by
  induction cs generalizing s d with
  | nil => exact ⟨s, rfl⟩
  | cons c cs ih =>
    unfold Console.consoleintr
    split_ifs with hneg
    · exact ⟨s, rfl⟩
    · obtain ⟨s₁, hc, hr⟩ := h.typed_isSome hlim c
      rw [hc, Option.bind_some]
      exact ih (h.typed hc) (by rw [hr]; exact hlim)

end Shows

namespace Editor

variable {d : Editor}

theorem committed_key (d : Editor) (c : ℤ) :
    d.committed <+: (d.key c).committed ∧ (d.key c).taken = d.taken := by
  unfold key accept
  split_ifs
  · exact ⟨prefix_refl _, rfl⟩
  · exact ⟨prefix_refl _, rfl⟩
  · exact ⟨prefix_append _ _, rfl⟩
  · exact ⟨prefix_refl _, rfl⟩
  · exact ⟨prefix_refl _, rfl⟩

theorem committed_keys (d : Editor) (cs : List ℤ) :
    d.committed <+: (d.keys cs).committed ∧ (d.keys cs).taken = d.taken := by
  induction cs generalizing d with
  | nil => exact ⟨prefix_refl _, rfl⟩
  | cons c cs ih =>
    unfold keys
    split_ifs
    · exact ⟨prefix_refl _, rfl⟩
    · obtain ⟨hc, ht⟩ := d.committed_key c
      obtain ⟨hcs, hts⟩ := ih (d.key c)
      exact ⟨hc.trans hcs, hts.trans ht⟩

/-- What is committed stays, and reading goes on. -/
theorem committed_run (d : Editor) (as : List Act) :
    d.committed <+: (d.run as).committed ∧ d.taken ≤ (d.run as).taken := by
  induction as generalizing d with
  | nil => exact ⟨prefix_refl _, le_rfl⟩
  | cons a as ih =>
    obtain ⟨hcs, hts⟩ := ih (d.step a)
    have ha : d.committed <+: (d.step a).committed ∧ d.taken ≤ (d.step a).taken := by
      cases a with
      | intr cs =>
        obtain ⟨h1, h2⟩ := d.committed_keys cs
        exact ⟨h1, le_of_eq h2.symm⟩
      | advance n => exact ⟨prefix_refl _, Nat.le_add_right _ _⟩
    exact ⟨ha.1.trans hcs, ha.2.trans hts⟩

end Editor

/-- **Line editing keeps committed input intact.**  After any interrupts, with any characters, and
any reads: the counters are in order and a buffer apart; the line being edited is that of the
editor; in whatever comes after, a committed byte is the same until it is read; and only a counter
at the end of its range stops an interrupt. -/
theorem line_editing {as : List Act} {s : Input} (hrun : run INPUT as = some s) :
    (s.r ≤ s.w ∧ s.w ≤ s.e ∧ s.e ≤ s.r + INPUT_BUF_SIZE) ∧
    ((List.range (s.e - s.w)).map fun i => s.buf ((s.w + i) % INPUT_BUF_SIZE)) =
      (Editor.empty.run as).pending ∧
    (∀ as' s', run s as' = some s' → ∀ k, s'.r ≤ k → k < s.w →
      s'.buf (k % INPUT_BUF_SIZE) = s.buf (k % INPUT_BUF_SIZE)) ∧
    (s.r + INPUT_BUF_SIZE < 2 ^ 64 → ∀ cs, ∃ s', consoleintr s cs = some s') := by
  have h := Shows.init.run hrun
  refine ⟨⟨h.le_w, h.le_e, h.room⟩, h.line, fun as' s' hrun' k hr hk => ?_, h.consoleintr_isSome⟩
  have h' := h.run hrun'
  obtain ⟨⟨l, hl⟩, htaken⟩ := (Editor.empty.run as).committed_run as'
  have hk' : k < ((Editor.empty.run as).run as').committed.length := by
    rw [← hl, length_append, ← h.w]
    omega
  rw [h'.bytes k hr (by rw [h'.e]; omega), h.bytes k ?_ (lt_of_lt_of_le hk h.le_e),
    getD_append _ _ _ _ hk', getD_append _ _ _ _ (by rw [← h.w]; exact hk), ← hl,
    getD_append _ _ _ _ (by rw [← h.w]; exact hk)]
  rw [h'.r] at hr
  rw [h.r]
  exact le_trans htaken hr

/-- `ab`, an erased `b`, a `c` and the end of the line; then an `x`. -/
theorem line_editing_abc :
    ∃ s, run INPUT [.intr [97, 98, 127, 99, 13], .advance 1, .intr [120]] = some s ∧
    (s.r, s.w, s.e) = (1, 3, 4) ∧
    ((List.range (s.e - s.w)).map fun i => s.buf ((s.w + i) % INPUT_BUF_SIZE)) = [120] := by
  have hsome : (run INPUT [.intr [97, 98, 127, 99, 13], .advance 1, .intr [120]]).map
      (fun s => (s.r, s.w, s.e)) = some (1, 3, 4) := by decide +kernel
  obtain ⟨s, hrun, hs⟩ := Option.map_eq_some_iff.1 hsome
  refine ⟨s, hrun, hs, ?_⟩
  rw [(line_editing hrun).2.1]
  decide

end Xv6.Drivers.Console
