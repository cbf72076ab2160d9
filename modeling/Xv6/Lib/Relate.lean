import Mathlib

/-!
# Two computations that fail alike

`Relate R x y` says that two computations in `Except` both fail, with the same error, or both
succeed with results that `R` relates.  It is how one version of a program is compared with another
that carries more data.

* `Relate.bind` — sequences, one step at a time.
* `Relate.ite` — a test that both make.
-/

namespace Xv6.Lib

variable {ε α α' β β' : Type}

/-- Both fail in the same way, or both succeed with related results. -/
inductive Relate (R : α → β → Prop) : Except ε α → Except ε β → Prop
  | ok {a : α} {b : β} : R a b → Relate R (.ok a) (.ok b)
  | error (e : ε) : Relate R (.error e) (.error e)

variable {R : α → β → Prop} {S : α' → β' → Prop} {x : Except ε α} {y : Except ε β}

theorem Relate.bind {f : α → Except ε α'} {g : β → Except ε β'} (h : Relate R x y)
    (hfg : ∀ a b, R a b → Relate S (f a) (g b)) : Relate S (x >>= f) (y >>= g) := by
  cases h with
  | ok hab => exact hfg _ _ hab
  | error e => exact .error e

theorem Relate.ite {p : Prop} [Decidable p] {x' : Except ε α} {y' : Except ε β}
    (ht : p → Relate R x y) (hf : ¬p → Relate R x' y') :
    Relate R (if p then x else x') (if p then y else y') := by
  split_ifs with h
  · exact ht h
  · exact hf h

theorem Relate.ok_left {a : α} (h : Relate R (.ok a) y) : ∃ b, y = .ok b ∧ R a b := by
  cases h with
  | ok hab => exact ⟨_, rfl, hab⟩

theorem Relate.ok_right {b : β} (h : Relate R x (.ok b)) : ∃ a, x = .ok a ∧ R a b := by
  cases h with
  | ok hab => exact ⟨_, rfl, hab⟩

end Xv6.Lib
