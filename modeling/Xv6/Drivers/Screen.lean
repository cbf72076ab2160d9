import Mathlib.Logic.Function.Basic
import Mathlib.Tactic.Linarith

/-!
# The screen

`cgaputc` and `consputc` of `crates/console/src/lib.rs`.  The screen is 25 rows of 80 cells, of
which the last is never used; the cursor is in two registers of the controller.  A row that is
full goes to the next one, and at the end of row 23 everything moves up by a row.

* `cgaputc` — one character, or a backspace.
* `Paper` — what a terminal is: an endless sheet, of which 24 rows are seen.
* `Shows` — the screen is that part of the sheet; `Shows.cgaputc`, `Shows.run` — it goes on being
  it.
* `console_shows_paper` — so it is after every output.
* `output_isSome_iff` — where the firmware may have left the cursor.
-/

namespace Xv6.Drivers.Cga

open Function

abbrev BACKSPACE : ℤ := 0x100

/-- The screen: its memory, and registers 14 and 15 of the controller. -/
structure Screen where
  crt : ℕ → UInt16
  high : UInt8
  low : UInt8

/-- Gray on black. -/
def gray (c : ℤ) : UInt16 := UInt16.ofNat (c % 256).toNat ||| 0x0700

/-- The cursor, read from the registers. -/
def Screen.position (s : Screen) : ℕ := s.high.toNat <<< 8 ||| s.low.toNat

/-- The cursor, written to them. -/
def Screen.moveTo (s : Screen) (pos : ℕ) : Screen :=
  { s with high := UInt8.ofNat (pos >>> 8), low := UInt8.ofNat (pos &&& 0xff) }

/-- The first part of `cgaputc`: the character. -/
def write (crt : ℕ → UInt16) (pos : ℕ) (c : ℤ) : (ℕ → UInt16) × ℕ :=
  if c = 10 then (crt, pos + (80 - pos % 80))
  else if c = BACKSPACE then (crt, if 0 < pos then pos - 1 else pos)
  else (update crt pos (gray c), pos + 1)

/-- The second: everything up by a row, and nothing below; `24 * 80 - pos` may panic. -/
def scroll (crt : ℕ → UInt16) (pos : ℕ) : Option ((ℕ → UInt16) × ℕ) :=
  if 24 ≤ pos / 80 then
    if 24 * 80 < pos - 80 then none
    else some (fun i => if pos - 80 ≤ i ∧ i < 24 * 80 then 0 else if i < 23 * 80 then crt (80 + i)
      else crt i, pos - 80)
  else some (crt, pos)

/-- `cgaputc`, `none` where it panics. -/
def cgaputc (s : Screen) (c : ℤ) : Option Screen :=
  (scroll (write s.crt s.position c).1 (write s.crt s.position c).2).map fun v =>
    { s.moveTo v.2 with crt := update v.1 v.2 (gray 32) }

/-- `consputc`.  What it first passes to `uartputc` goes nowhere: `UART_EXISTS` is false, as nothing
calls `uartearlyinit`, and `uartputc` returns at once. -/
def consputc (s : Screen) (c : ℤ) : Option Screen := cgaputc s c

/-- One after the other. -/
def output : Screen → List ℤ → Option Screen
  | s, [] => some s
  | s, c :: cs => (consputc s c).bind fun s' => output s' cs

variable {s : Screen} {c : ℤ} {pos : ℕ}

theorem position_moveTo (hpos : pos < 2 ^ 16) : (s.moveTo pos).position = pos := by
  have hhigh : pos >>> 8 < 256 := by
    rw [Nat.shiftRight_eq_div_pow]
    omega
  have hlow : pos &&& 0xff = pos % 256 := Nat.and_two_pow_sub_one_eq_mod pos 8
  rw [Screen.position, Screen.moveTo, hlow, UInt8.toNat_ofNat_of_lt' hhigh,
    UInt8.toNat_ofNat_of_lt' (Nat.mod_lt _ (by decide)),
      ← Nat.shiftLeft_add_eq_or_of_lt (Nat.mod_lt _ (by decide)),
    Nat.shiftLeft_eq, Nat.shiftRight_eq_div_pow]
  omega

/-! ## The sheet -/

/-- A sheet of paper without an end, the cursor, and the first row that is seen. -/
structure Paper where
  cell : ℕ → UInt16
  pos : ℕ
  top : ℕ

namespace Paper

/-- The character; what is no longer seen cannot be erased. -/
def write (p : Paper) (c : ℤ) : Paper :=
  if c = 10 then { p with pos := p.pos + (80 - p.pos % 80) }
  else if c = BACKSPACE then { p with pos := if 80 * p.top < p.pos then p.pos - 1 else p.pos }
  else { p with cell := update p.cell p.pos (gray c), pos := p.pos + 1 }

/-- The cursor is always seen. -/
def follow (p : Paper) : Paper := if p.top + 24 ≤ p.pos / 80 then { p with top := p.top + 1 } else p

/-- A blank under the cursor. -/
def mark (p : Paper) : Paper := { p with cell := update p.cell p.pos (gray 32) }

def put (p : Paper) (c : ℤ) : Paper := (p.write c).follow.mark

end Paper

/-- The screen is the part of the sheet that is seen, and below that nothing is written. -/
structure Shows (s : Screen) (p : Paper) : Prop where
  cursor : p.pos = 80 * p.top + s.position
  seen : s.position < 24 * 80
  cells : ∀ i < 24 * 80, s.crt i = p.cell (80 * p.top + i)
  below : ∀ j, 80 * p.top + 24 * 80 ≤ j → p.cell j = 0

variable {p : Paper}

/-- The cursor after the character, on the screen and on the sheet. -/
theorem Shows.write (h : Shows s p) (c : ℤ) :
    (p.write c).top = p.top ∧ (p.write c).pos = 80 * p.top + (Cga.write s.crt s.position c).2 ∧
      (Cga.write s.crt s.position c).2 ≤ 24 * 80 ∧
      (∀ i < 24 * 80, (Cga.write s.crt s.position c).1 i = (p.write c).cell (80 * p.top + i)) ∧
      ∀ j, 80 * p.top + 24 * 80 ≤ j → (p.write c).cell j = 0 := by
  obtain ⟨hcursor, hseen, hcells, hbelow⟩ := h
  simp only [Cga.write, Paper.write]
  split_ifs with hnl hbs hpos htop htop
  · refine ⟨rfl, ?_, ?_, hcells, hbelow⟩
    · simp only [hcursor, Nat.mul_add_mod]
      omega
    · simp only
      omega
  · refine ⟨rfl, ?_, ?_, hcells, hbelow⟩ <;> simp only <;> omega
  · omega
  · omega
  · refine ⟨rfl, ?_, ?_, hcells, hbelow⟩ <;> simp only <;> omega
  · refine ⟨rfl, ?_, hseen, fun i hi => ?_, fun j hj => ?_⟩
    · simp only
      omega
    · change update s.crt s.position (gray c) i = update p.cell p.pos (gray c)
        (80 * p.top + i)
      by_cases he : i = s.position
      · subst he
        rw [hcursor, update_self, update_self]
      · rw [update_of_ne he, update_of_ne (by omega)]
        exact hcells i hi
    · change update p.cell p.pos (gray c) j = 0
      rw [update_of_ne (by omega)]
      exact hbelow j hj

theorem Shows.cgaputc (h : Shows s p) (c : ℤ) :
    ∃ s', Cga.cgaputc s c = some s' ∧ Shows s' (p.put c) := by
  obtain ⟨htop, hpos, hle, hcells, hbelow⟩ := h.write c
  obtain ⟨crt, hcrt⟩ : ∃ crt, crt = (Cga.write s.crt s.position c).1 := ⟨_, rfl⟩
  obtain ⟨at', hat⟩ : ∃ at', at' = (Cga.write s.crt s.position c).2 := ⟨_, rfl⟩
  rw [← hat] at hpos hle
  rw [← hcrt] at hcells
  rw [Cga.cgaputc, ← hat, ← hcrt, Paper.put]
  generalize p.write c = q at *
  -- the row below the last that is seen is reached from its end only
  by_cases hfull : 24 ≤ at' / 80
  · have hat' : at' = 24 * 80 := by omega
    subst hat'
    rw [scroll, if_pos hfull, if_neg (by omega)]
    refine ⟨_, rfl, ?_⟩
    have hfollow : q.follow = { q with top := q.top + 1 } := by
      rw [Paper.follow, if_pos (by omega)]
    have hmoved : (s.moveTo (24 * 80 - 80)).position = 24 * 80 - 80 := position_moveTo (by decide)
    rw [hfollow]
    refine ⟨?_, ?_, fun i hi => ?_, fun j hj => ?_⟩
    · change q.pos = 80 * (q.top + 1) + (s.moveTo (24 * 80 - 80)).position
      omega
    · change (s.moveTo (24 * 80 - 80)).position < _
      omega
    · change update (fun i => if 24 * 80 - 80 ≤ i ∧ i < 24 * 80 then 0 else if i < 23 * 80
        then crt (80 + i) else crt i)
        (24 * 80 - 80) (gray 32) i = update q.cell q.pos (gray 32) (80 * (q.top + 1) + i)
      by_cases he : i = 24 * 80 - 80
      · subst he
        rw [update_self, show 80 * (q.top + 1) + (24 * 80 - 80) = q.pos by omega, update_self]
      · rw [update_of_ne he, update_of_ne (by omega)]
        by_cases hlast : 24 * 80 - 80 ≤ i
        · rw [if_pos ⟨hlast, hi⟩, hbelow _ (by omega)]
        · rw [if_neg (by omega), if_pos (by omega), hcells _ (by omega)]
          congr 1
          omega
    · change update q.cell q.pos (gray 32) j = 0
      change 80 * (q.top + 1) + 24 * 80 ≤ j at hj
      rw [update_of_ne (by omega), hbelow _ (by omega)]
  · rw [scroll, if_neg hfull]
    refine ⟨_, rfl, ?_⟩
    have hfollow : q.follow = q := by
      rw [Paper.follow, if_neg (by omega)]
    have hmoved : (s.moveTo at').position = at' := position_moveTo (by omega)
    rw [hfollow]
    refine ⟨?_, ?_, fun i hi => ?_, fun j hj => ?_⟩
    · change q.pos = 80 * q.top + (s.moveTo at').position
      omega
    · change (s.moveTo at').position < _
      omega
    · change update crt at' (gray 32) i = update q.cell q.pos (gray 32)
        (80 * q.top + i)
      rw [htop]
      by_cases he : i = at'
      · subst he
        rw [hpos, update_self, update_self]
      · rw [update_of_ne he, update_of_ne (by omega)]
        exact hcells i hi
    · change update q.cell q.pos (gray 32) j = 0
      change 80 * q.top + 24 * 80 ≤ j at hj
      rw [update_of_ne (by omega), hbelow _ (by omega)]

/-! ## Whole outputs -/

/-- The sheet when the console starts: what is on the screen. -/
def Paper.start (s : Screen) : Paper where
  cell i := if i < 24 * 80 then s.crt i else 0
  pos := s.position
  top := 0

theorem shows_start (h : s.position < 24 * 80) : Shows s (.start s) where
  cursor := by simp [Paper.start]
  seen := h
  cells i hi := by simp [Paper.start, hi]
  below j hj := if_neg (by change 80 * 0 + 24 * 80 ≤ j at hj; omega)

theorem Shows.run (h : Shows s p) (cs : List ℤ) :
    ∃ s', output s cs = some s' ∧ Shows s' (cs.foldl Paper.put p) := by
  induction cs generalizing s p with
  | nil => exact ⟨s, rfl, h⟩
  | cons c cs ih =>
    obtain ⟨s₁, hs, hshows⟩ := h.cgaputc c
    obtain ⟨s', hrun, hshows'⟩ := ih hshows
    refine ⟨s', ?_, hshows'⟩
    rw [output, consputc, hs]
    exact hrun

/-- **The screen is a window on the whole output.**  From every screen whose cursor is in its first
24 rows, every sequence of characters and backspaces is output without a panic; the screen then
shows 24 rows of an endless sheet on which it has been written, and the cursor is where it is on
the sheet and is seen. -/
theorem console_shows_paper (s : Screen) (cs : List ℤ) (h : s.position < 24 * 80) :
    ∃ s', output s cs = some s' ∧ s'.position < 24 * 80 ∧
      (cs.foldl Paper.put (.start s)).pos =
        80 * (cs.foldl Paper.put (.start s)).top + s'.position ∧
      ∀ i < 24 * 80, s'.crt i =
        (cs.foldl Paper.put (.start s)).cell (80 * (cs.foldl Paper.put (.start s)).top + i) := by
  obtain ⟨s', hrun, hshows⟩ := (shows_start h).run cs
  exact ⟨s', hrun, hshows.seen, hshows.cursor, hshows.cells⟩

/-- An empty screen with the cursor at the end of row 23. -/
def blank : Screen := ⟨fun _ => 0, 7, 127⟩

/-- A character there scrolls the screen, a newline scrolls it again, and the prompt of the shell
is then in row 23. -/
theorem console_shows_prompt : blank.position = 24 * 80 - 1 ∧
    ∃ s', output blank [36, 10, 36, 32] = some s' ∧ s'.position = 23 * 80 + 2 ∧
      s'.crt (23 * 80) = gray 36 := by
  obtain ⟨s', hrun, -, hcursor, hcells⟩ :=
    console_shows_paper blank [36, 10, 36, 32] (by decide +kernel)
  have htop : ([36, 10, 36, 32].foldl Paper.put (.start blank)).top = 2 := by decide +kernel
  have hpos : ([36, 10, 36, 32].foldl Paper.put (.start blank)).pos = 25 * 80 + 2 := by
    decide +kernel
  have hcell : ([36, 10, 36, 32].foldl Paper.put (.start blank)).cell (80 * 2 + 23 * 80) =
    gray 36 := by decide +kernel
  rw [htop, hpos] at hcursor
  refine ⟨by decide +kernel, s', hrun, by omega, ?_⟩
  rw [hcells (23 * 80) (by decide), htop, hcell]

theorem position_le_of_write (h : s.position < 25 * 80) (c : ℤ) :
    (write s.crt s.position c).2 ≤ 25 * 80 := by
  simp only [write]
  split_ifs <;> simp only <;> omega

theorem cgaputc_inside (h : s.position < 25 * 80) (c : ℤ) :
    ∃ s', cgaputc s c = some s' ∧ s'.position < 25 * 80 := by
  have hle := position_le_of_write h c
  rw [cgaputc, scroll]
  by_cases hfull : 24 ≤ (write s.crt s.position c).2 / 80
  · rw [if_pos hfull, if_neg (by omega)]
    exact ⟨_, rfl, lt_of_eq_of_lt (position_moveTo (s := s) (by omega)) (by omega)⟩
  · rw [if_neg hfull]
    exact ⟨_, rfl, lt_of_eq_of_lt (position_moveTo (s := s) (by omega)) (by omega)⟩

theorem output_inside (h : s.position < 25 * 80) (cs : List ℤ) : (output s cs).isSome := by
  induction cs generalizing s with
  | nil => rfl
  | cons c cs ih =>
    obtain ⟨s', hs, hlt⟩ := cgaputc_inside h c
    rw [output, consputc, hs]
    exact ih hlt

/-- **Where the cursor may be found.**  `cgaputc` reads the cursor the firmware has left.  All
output goes through, whatever it is, if and only if that is one of the 25 rows. -/
theorem output_isSome_iff (s : Screen) :
    (∀ cs, (output s cs).isSome) ↔ s.position < 25 * 80 := by
  refine ⟨fun hall => ?_, fun h cs => output_inside h cs⟩
  by_contra hout
  have hone := hall [0]
  have hwrite : write s.crt s.position 0 =
      (update s.crt s.position (gray 0), s.position + 1) := rfl
  rw [output, consputc, cgaputc, hwrite, scroll, if_pos (by omega), if_pos (by omega)] at hone
  cases hone

end Xv6.Drivers.Cga
