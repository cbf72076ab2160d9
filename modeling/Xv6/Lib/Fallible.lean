import Mathlib

/-!
# Computations that may fail

Rules for code in `Except`: a sequence that succeeds has succeeded at every step,
and a loop over a list that succeeds keeps what each pass keeps.

* `bind_eq_ok` — the first part of a successful sequence.
* `toOption_eq_some` — a success, where failures are not told apart.
* `foldlM_ok` — the rule for loops that end well.
* `foldlM_ok_of` — the rule for loops that must end well.
-/

namespace Xv6.Lib

variable {ε α β : Type}

theorem bind_eq_ok {x : Except ε α} {f : α → Except ε β} {r : β} :
    (x >>= f) = .ok r ↔ ∃ a, x = .ok a ∧ f a = .ok r := by
  constructor
  · intro h
    cases x with
    | error e => cases h
    | ok a => exact ⟨a, rfl, h⟩
  · rintro ⟨a, rfl, h⟩
    exact h

theorem bind_ok {x : Except ε α} {f : α → Except ε β} {a : α} (h : x = .ok a) :
    (x >>= f) = f a := by
  rw [h]
  rfl

theorem map_eq_ok {x : Except ε α} {f : α → β} {r : β} :
    x.map f = .ok r ↔ ∃ a, x = .ok a ∧ f a = r := by
  constructor
  · intro h
    cases x with
    | error e => cases h
    | ok a => exact ⟨a, rfl, Except.ok.inj h⟩
  · rintro ⟨a, rfl, rfl⟩
    rfl

theorem toOption_eq_some {x : Except ε α} {a : α} : x.toOption = some a ↔ x = .ok a := by
  constructor
  · intro h
    cases x with
    | error e => cases h
    | ok b =>
      cases h
      rfl
  · rintro rfl
    rfl

theorem toOption_map_eq_some {x : Except ε α} {f : α → β} {r : β} (h : x.toOption.map f = some r) :
    ∃ a, x = .ok a ∧ f a = r := by
  obtain ⟨a, ha, hr⟩ := Option.map_eq_some_iff.1 h
  exact ⟨a, toOption_eq_some.1 ha, hr⟩

/-- A property of the passes done so far that every successful pass keeps. -/
theorem foldlM_ok {f : α → β → Except ε α} {I : List β → α → Prop} {l : List β} {a a' : α}
    (h : I [] a) (hstep : ∀ done b x x', I done x → f x b = .ok x' → I (done ++ [b]) x')
    (hok : l.foldlM f a = .ok a') : I l a' := by
  -- the induction is on what is left; the passes done are its parameter
  suffices hgen : ∀ (l done : List β) (x : α), I done x → l.foldlM f x = .ok a' → I (done ++ l) a'
    from hgen l [] a h hok
  intro l
  induction l with
  | nil =>
    intro done x hx hr
    cases hr
    rwa [List.append_nil]
  | cons b l ih =>
    intro done x hx hr
    obtain ⟨x', h1, h2⟩ := bind_eq_ok.1 hr
    have h3 := ih (done ++ [b]) x' (hstep done b x x' hx h1) h2
    rwa [List.append_assoc] at h3

/-- A property of the passes left under which each of them succeeds and is kept. -/
theorem foldlM_ok_of {f : α → β → Except ε α} {I : List β → α → Prop} {l : List β} {a : α}
    (h : I l a) (hstep : ∀ b rest x, I (b :: rest) x → ∃ x', f x b = .ok x' ∧ I rest x') :
    ∃ a', l.foldlM f a = .ok a' ∧ I [] a' := by
  induction l generalizing a with
  | nil => exact ⟨a, rfl, h⟩
  | cons b l ih =>
    obtain ⟨x', h1, h2⟩ := hstep b l a h
    obtain ⟨a', h3, h4⟩ := ih h2
    exact ⟨a', bind_eq_ok.2 ⟨x', h1, h3⟩, h4⟩

end Xv6.Lib
