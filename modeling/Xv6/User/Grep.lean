import Xv6.User.Sh

/-!
# The matcher of grep

The regular expression matcher of `user/src/grep.rs`: `match_pattern` tries `matchhere` at every
place of the text, and `matchhere` and `matchstar` call each other.  A C string is the list of
its bytes, and the byte past its end is the `NUL`.

* `items` — the pattern language.
* `matchstar_iff`, `matchhere_iff` — the two functions, one in terms of the other.
* `match_pattern_iff` — the matcher finds a pattern exactly where the language does.
-/

namespace Xv6.User.Grep

open Sh (b deref)

/-- A string of C: no byte before the end is `NUL`. -/
structure CString where
  bytes : List UInt8
  noNul : 0 ∉ bytes

theorem length_tail_lt {s : List UInt8} (h : deref s ≠ 0) : s.tail.length < s.length := by
  cases s with
  | nil => exact absurd rfl h
  | cons c s => simp

theorem length_drop_lt {s : List UInt8} (h : deref s ≠ 0) : (s.drop 2).length < s.length := by
  cases s with
  | nil => exact absurd rfl h
  | cons c s => simp

mutual

/-- Search for `re` at the beginning of `text`. -/
def matchhere (re text : List UInt8) : Bool :=
  if deref re = 0 then true
  else if deref re.tail = b '*' then matchstar (deref re) (re.drop 2) text
  else if deref re = b '$' ∧ deref re.tail = 0 then deref text == 0
  else if deref text ≠ 0 ∧ (deref re = b '.' ∨ deref re = deref text)
    then matchhere re.tail text.tail
  else false
termination_by (re.length, 0)
decreasing_by
  · exact Prod.Lex.left _ _ (length_drop_lt ‹_›)
  · exact Prod.Lex.left _ _ (length_tail_lt ‹¬deref re = 0›)

/-- Search for `c*re` at the beginning of `text`. -/
def matchstar (c : UInt8) (re text : List UInt8) : Bool :=
  if matchhere re text then true
  else if deref text = 0 ∨ (deref text ≠ c ∧ c ≠ b '.') then false
  else matchstar c re text.tail
termination_by (re.length, text.length + 1)
decreasing_by
  · exact Prod.Lex.right _ (Nat.succ_pos _)
  · exact Prod.Lex.right _ (Nat.succ_lt_succ (length_tail_lt fun h => ‹¬(_ ∨ _)› (Or.inl h)))

end

/-- The loop of `match_pattern`. -/
def matchfrom (re t : List UInt8) : Bool :=
  if matchhere re t then true
  else if deref t = 0 then false
  else matchfrom re t.tail
termination_by t.length
decreasing_by exact length_tail_lt ‹_›

/-- `match_pattern`. -/
def match_pattern (re text : List UInt8) : Bool :=
  if deref re = b '^' then matchhere re.tail text else matchfrom re text

/-! ## The pattern language -/

/-- What a pattern is made of. -/
inductive Item where
  /-- Any number of bytes `c`, or of any bytes for a dot. -/
  | star (c : UInt8)
  /-- The end of the text. -/
  | last
  /-- One byte. -/
  | any
  /-- The byte itself. -/
  | lit (c : UInt8)
  deriving DecidableEq

/-- A byte of the pattern that no star follows. -/
def Item.plain (c : UInt8) : Item := if c = b '.' then .any else .lit c

/-- The items of a pattern without its anchor, from left to right. -/
def items : List UInt8 → List Item
  | [] => []
  | [c] => if c = b '$' then [.last] else [.plain c]
  | c :: d :: re => if d = b '*' then .star c :: items re else .plain c :: items (d :: re)

/-- The bytes `s` match an item, with `after` behind them. -/
def Item.Matches (s after : List UInt8) : Item → Prop
  | .star c => ∀ x ∈ s, c = b '.' ∨ c = x
  | .last => s = [] ∧ after = []
  | .any => ∃ x, s = [x]
  | .lit c => s = [c]

/-- They match a sequence of items. -/
def Matches : List Item → List UInt8 → List UInt8 → Prop
  | [], s, _ => s = []
  | i :: is, s, after => ∃ s₁ s₂, s = s₁ ++ s₂ ∧ i.Matches s₁ (s₂ ++ after) ∧ Matches is s₂ after

/-- A text starts with a match. -/
def Starts (is : List Item) (text : List UInt8) : Prop :=
  ∃ s after, text = s ++ after ∧ Matches is s after

/-- The pattern is found in the text: at its start behind an anchor, else anywhere. -/
def Found (re text : List UInt8) : Prop :=
  if deref re = b '^' then Starts (items re.tail) text
  else ∃ before t, text = before ++ t ∧ Starts (items re) t

/-! ## One item at a time -/

variable {c : UInt8} {re text : List UInt8} {is : List Item}

@[simp] theorem deref_nil : deref [] = 0 := rfl

@[simp] theorem deref_cons : deref (c :: text) = c := rfl

@[simp] theorem matchhere_nil : matchhere [] text = true := by
  rw [matchhere]
  simp

theorem starts_nil : Starts [] text := ⟨[], text, rfl, rfl⟩

theorem starts_star : Starts (.star c :: is) text ↔
    ∃ run t, text = run ++ t ∧ (∀ x ∈ run, c = b '.' ∨ c = x) ∧ Starts is t := by
  constructor
  · rintro ⟨s, after, rfl, s₁, s₂, rfl, hrun, hs⟩
    exact ⟨s₁, s₂ ++ after, by simp, hrun, s₂, after, rfl, hs⟩
  · rintro ⟨run, t, rfl, hrun, s, after, rfl, hs⟩
    exact ⟨run ++ s, after, by simp, run, s, rfl, hrun, hs⟩

theorem starts_last : Starts [.last] text ↔ text = [] := by
  constructor
  · rintro ⟨s, after, rfl, s₁, s₂, rfl, ⟨rfl, hafter⟩, -⟩
    simpa using hafter
  · rintro rfl
    exact ⟨[], [], rfl, [], [], rfl, ⟨rfl, rfl⟩, rfl⟩

theorem starts_plain : Starts (.plain c :: is) text ↔
    ∃ x t, text = x :: t ∧ (c = b '.' ∨ c = x) ∧ Starts is t := by
  by_cases hc : c = b '.'
  · simp only [Item.plain, hc, if_true, true_or, true_and]
    constructor
    · rintro ⟨s, after, rfl, s₁, s₂, rfl, ⟨x, rfl⟩, hs⟩
      exact ⟨x, s₂ ++ after, rfl, s₂, after, rfl, hs⟩
    · rintro ⟨x, t, rfl, s, after, rfl, hs⟩
      exact ⟨x :: s, after, rfl, [x], s, rfl, ⟨x, rfl⟩, hs⟩
  · simp only [Item.plain, hc, if_false, false_or]
    constructor
    · rintro ⟨s, after, rfl, s₁, s₂, rfl, rfl, hs⟩
      exact ⟨c, s₂ ++ after, rfl, rfl, s₂, after, rfl, hs⟩
    · rintro ⟨x, t, rfl, rfl, s, after, rfl, hs⟩
      exact ⟨c :: s, after, rfl, [c], s, rfl, rfl, hs⟩

/-! ## The functions -/

/-- `matchstar` tries `matchhere` behind every run of `c`, shortest first. -/
theorem matchstar_iff (htext : 0 ∉ text) : matchstar c re text = true ↔
    ∃ run t, text = run ++ t ∧ (∀ x ∈ run, c = b '.' ∨ c = x) ∧ matchhere re t = true := by
  induction text with
  | nil =>
    unfold matchstar
    constructor
    · intro h
      refine ⟨[], [], rfl, by simp, ?_⟩
      simpa using h
    · rintro ⟨run, t, hrun, -, hhere⟩
      obtain ⟨rfl, rfl⟩ := List.append_eq_nil_iff.1 hrun.symm
      simp [hhere]
  | cons x text ih =>
    simp only [List.mem_cons, not_or] at htext
    unfold matchstar
    by_cases hhere : matchhere re (x :: text) = true
    · simp only [hhere, if_true, true_iff]
      exact ⟨[], x :: text, rfl, by simp, hhere⟩
    · have hx : x ≠ 0 := Ne.symm htext.1
      simp only [hhere, deref_cons, hx, false_or, List.tail_cons, Bool.false_eq_true, if_false]
      by_cases hc : c = b '.' ∨ c = x
      · have hgo : ¬(x ≠ c ∧ c ≠ b '.') := by
          rintro ⟨hxc, hdot⟩
          exact hc.elim hdot fun h => hxc h.symm
        rw [if_neg hgo, ih htext.2]
        constructor
        · rintro ⟨run, t, rfl, hrun, ht⟩
          exact ⟨x :: run, t, rfl, by simpa [hc] using hrun, ht⟩
        · rintro ⟨run, t, heq, hrun, ht⟩
          cases run with
          | nil =>
            rw [List.nil_append] at heq
            exact absurd (heq ▸ ht) hhere
          | cons y run =>
            obtain ⟨rfl, rfl⟩ := List.cons.inj heq
            exact ⟨run, t, rfl, fun z hz => hrun z (List.mem_cons_of_mem _ hz), ht⟩
      · have hstop : x ≠ c ∧ c ≠ b '.' := ⟨fun h => hc (Or.inr h.symm), fun h => hc (Or.inl h)⟩
        rw [if_pos hstop]
        simp only [Bool.false_eq_true, false_iff]
        rintro ⟨run, t, heq, hrun, ht⟩
        cases run with
        | nil =>
          rw [List.nil_append] at heq
          exact hhere (heq ▸ ht)
        | cons y run =>
          obtain ⟨rfl, rfl⟩ := List.cons.inj heq
          exact hc (hrun _ List.mem_cons_self)

/-- A step of `matchhere` on a byte that no star follows. -/
theorem matchhere_plain {r : List UInt8} (hc : c ≠ 0) (hstar : deref r ≠ b '*')
    (hlast : ¬(c = b '$' ∧ deref r = 0)) (htext : 0 ∉ text) : matchhere (c :: r) text = true ↔
      ∃ x t, text = x :: t ∧ (c = b '.' ∨ c = x) ∧ matchhere r t = true := by
  rw [matchhere]
  simp only [deref_cons, List.tail_cons, hc, hstar, hlast, if_false]
  cases text with
  | nil => simp
  | cons x t =>
    have hx : x ≠ 0 := fun h => htext (h ▸ List.mem_cons_self)
    simp only [deref_cons, ne_eq, hx, not_false_eq_true, true_and, List.tail_cons]
    split_ifs with hmatch
    · constructor
      · intro h
        exact ⟨x, t, rfl, hmatch, h⟩
      · rintro ⟨y, u, heq, -, h⟩
        obtain ⟨rfl, rfl⟩ := List.cons.inj heq
        exact h
    · constructor
      · intro h
        cases h
      · rintro ⟨y, u, heq, h, -⟩
        obtain ⟨rfl, rfl⟩ := List.cons.inj heq
        exact absurd h hmatch

/-- `matchhere` looks for the items of a pattern at the start of a text. -/
theorem matchhere_iff (hre : 0 ∉ re) (htext : 0 ∉ text) :
    matchhere re text = true ↔ Starts (items re) text := by
  -- the recursion of `items`, which takes a star together with the byte before it
  induction re using items.induct generalizing text with
  | case1 =>
    rw [matchhere]
    simp [items, starts_nil]
  | case2 =>
    have hc0 : ¬b '$' = 0 := by decide
    have hstar : ¬(0 : UInt8) = b '*' := by decide
    rw [matchhere, items, if_pos rfl, starts_last]
    simp only [deref_cons, List.tail_cons, deref_nil, hc0, hstar, if_false, and_self, if_true]
    cases text with
    | nil => simp
    | cons x t =>
      have hx : x ≠ 0 := fun h => htext (h ▸ List.mem_cons_self)
      simp [hx]
  | case3 c hc =>
    simp only [List.mem_singleton] at hre
    rw [items, if_neg hc, starts_plain, matchhere_plain (Ne.symm hre) (by decide)
      (by simp [hc]) htext]
    simp only [matchhere_nil, starts_nil]
  | case4 c re ih =>
    simp only [List.mem_cons, not_or] at hre
    rw [matchhere, items, if_pos rfl, starts_star]
    have hc0 : ¬c = 0 := Ne.symm hre.1
    simp only [deref_cons, List.tail_cons, hc0, if_false, if_true, List.drop_succ_cons,
      List.drop_zero]
    rw [matchstar_iff htext]
    refine exists_congr fun run => exists_congr fun t => and_congr_right fun heq => and_congr_right
      fun _ => ?_
    exact ih hre.2.2 fun h => htext (heq ▸ List.mem_append_right run h)
  | case5 c d re hd ih =>
    simp only [List.mem_cons, not_or] at hre
    have hd0 : ¬d = 0 := Ne.symm hre.2.1
    rw [items, if_neg hd, starts_plain,
      matchhere_plain (r := d :: re) (Ne.symm hre.1) hd (by simp [hd0]) htext]
    refine exists_congr fun x => exists_congr fun t => and_congr_right fun heq => and_congr_right
      fun _ => ?_
    exact ih (by simp [hre.2]) fun h => htext (heq ▸ List.mem_cons_of_mem x h)

/-- The loop of `match_pattern` goes through the tails of the text. -/
theorem matchfrom_iff (hre : 0 ∉ re) (htext : 0 ∉ text) :
    matchfrom re text = true ↔ ∃ before t, text = before ++ t ∧ Starts (items re) t := by
  induction text with
  | nil =>
    rw [matchfrom]
    simp only [deref_nil, if_true]
    constructor
    · intro h
      refine ⟨[], [], rfl, (matchhere_iff hre htext).1 ?_⟩
      simpa using h
    · rintro ⟨before, t, heq, h⟩
      obtain ⟨rfl, rfl⟩ := List.append_eq_nil_iff.1 heq.symm
      simpa using (matchhere_iff hre htext).2 h
  | cons x text ih =>
    have hx : ¬x = 0 := fun h => htext (h ▸ List.mem_cons_self)
    have hrest : 0 ∉ text := fun h => htext (List.mem_cons_of_mem x h)
    rw [matchfrom]
    simp only [deref_cons, hx, if_false, List.tail_cons]
    split_ifs with hhere
    · simp only [true_iff]
      exact ⟨[], x :: text, rfl, (matchhere_iff hre htext).1 hhere⟩
    · rw [ih hrest]
      constructor
      · rintro ⟨before, t, rfl, h⟩
        exact ⟨x :: before, t, rfl, h⟩
      · rintro ⟨before, t, heq, h⟩
        cases before with
        | nil =>
          rw [List.nil_append] at heq
          exact absurd ((matchhere_iff hre htext).2 (heq ▸ h)) hhere
        | cons y before =>
          obtain ⟨rfl, rfl⟩ := List.cons.inj heq
          exact ⟨before, t, rfl, h⟩

/-- The matcher finds a pattern in a text exactly where the language does. -/
theorem match_pattern_iff (pattern text : CString) :
    match_pattern pattern.bytes text.bytes = true ↔ Found pattern.bytes text.bytes := by
  unfold match_pattern Found
  split_ifs with hanchor
  · refine matchhere_iff (fun h => ?_) text.noNul
    exact pattern.noNul (List.mem_of_mem_tail h)
  · exact matchfrom_iff pattern.noNul text.noNul

end Xv6.User.Grep
