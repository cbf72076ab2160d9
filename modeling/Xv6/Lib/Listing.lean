import Mathlib

/-!
# Listings without sharing

A listing says for every key which resource it refers to, `0` standing for none.
`Unshared good refs` is the discipline of an allocator's clients: whatever is
listed is `good` (allocated, of the right kind) and no resource is listed under
two keys.

* `Unshared.shrink` — dropping references keeps it, also when fewer resources are
  good, as long as those still listed are.
* `Unshared.insert` — so does listing, under one key, a resource nobody else lists.
-/

namespace Xv6.Lib

/-- Everything listed is good, and listed once. -/
structure Unshared {κ : Type} (good : ℕ → Prop) (refs : κ → ℕ) : Prop where
  /-- What is listed is good. -/
  good : ∀ k, refs k ≠ 0 → good (refs k)
  /-- Nothing is listed twice. -/
  inj : ∀ k k', refs k = refs k' → refs k ≠ 0 → k = k'

namespace Unshared

variable {κ : Type} {good good' : ℕ → Prop} {refs refs' : κ → ℕ}

/-- Dropping references, with a change of what is good that spares those kept. -/
theorem shrink (h : Unshared good refs) (hsub : ∀ k, refs' k = refs k ∨ refs' k = 0)
    (hgood : ∀ k, refs' k ≠ 0 → good (refs' k) → good' (refs' k)) : Unshared good' refs' := by
  have hkeep : ∀ k, refs' k ≠ 0 → refs' k = refs k := fun k hk => (hsub k).resolve_right hk
  constructor
  · intro k hk
    have he := hkeep k hk
    exact hgood k hk (he ▸ h.good k (he ▸ hk))
  · intro k k' he hk
    have hk' : refs' k' ≠ 0 := he ▸ hk
    rw [hkeep k hk, hkeep k' hk'] at he
    exact h.inj k k' he (hkeep k hk ▸ hk)

/-- Listing under `k₀` a good resource that no other key keeps. -/
theorem insert (h : Unshared good refs) (k₀ : κ)
    (hsub : ∀ k, k ≠ k₀ → refs' k = refs k ∨ refs' k = 0)
    (hnew : refs' k₀ ≠ 0 → good (refs' k₀))
    (hfresh : ∀ k, k ≠ k₀ → refs' k ≠ 0 → refs' k ≠ refs' k₀) : Unshared good refs' := by
  constructor
  · intro k hk
    by_cases hk₀ : k = k₀
    · subst hk₀
      exact hnew hk
    · have he := (hsub k hk₀).resolve_right hk
      exact he ▸ h.good k (he ▸ hk)
  · intro k k' he hk
    have hk' : refs' k' ≠ 0 := he ▸ hk
    by_cases h1 : k = k₀
    · by_cases h2 : k' = k₀
      · rw [h1, h2]
      · exact absurd (h1 ▸ he.symm) (hfresh k' h2 hk')
    · by_cases h2 : k' = k₀
      · exact absurd (h2 ▸ he) (hfresh k h1 hk)
      · rw [(hsub k h1).resolve_right hk] at he hk
        rw [(hsub k' h2).resolve_right hk'] at he
        exact h.inj k k' he hk

end Unshared

end Xv6.Lib
