import Mathlib

/-!
# Ledgers

Resources are handed out from a free list and come back to it.  A ledger says of every
resource given to the allocator in which one place it is: on the list, or at one of the
places `κ` of the rest of the system.

* `Ledger.take`, `Ledger.give` — one resource from the list to a place and back.
* `Ledger.giveAll` — everything at a group of places back to the list.
* `Ledger.reindex` — places exchanged.
-/

namespace Xv6.Lib

variable {α κ κ' : Type}

/-- Every given resource is in exactly one place. -/
structure Ledger (given : α → Prop) (free : List α) (place : κ → Option α) : Prop where
  /-- On the free list once. -/
  nodup : free.Nodup
  /-- What is in a place is not free. -/
  apart : ∀ k f, place k = some f → f ∉ free
  /-- Nothing is in two places. -/
  inj : ∀ k k' f, place k = some f → place k' = some f → k = k'
  /-- Nothing is lost, and nothing else is here. -/
  covered : ∀ f, given f ↔ f ∈ free ∨ ∃ k, place k = some f

namespace Ledger

variable {given : α → Prop} {l l' : List α} {place place' : κ → Option α} {f : α} {k : κ}

/-- Two places differ in what they hold. -/
theorem ne_of_ne (h : Ledger given l place) {k' : κ} {f' : α} (hk : place k = some f)
    (hk' : place k' = some f') (hne : k ≠ k') : f ≠ f' := by
  rintro rfl
  exact hne (h.inj k k' f hk hk')

theorem given_of_free (h : Ledger given l place) (hf : f ∈ l) : given f :=
  (h.covered f).2 (Or.inl hf)

theorem given_of_place (h : Ledger given l place) (hk : place k = some f) : given f :=
  (h.covered f).2 (Or.inr ⟨k, hk⟩)

theorem take [DecidableEq κ] (h : Ledger given (f :: l) place) (hk : place k = none)
    (hplace : ∀ k', place' k' = if k' = k then some f else place k') : Ledger given l place' where
  nodup := (List.nodup_cons.1 h.nodup).2
  apart k' g hg := by
    rw [hplace] at hg
    split_ifs at hg with he
    · cases hg
      exact (List.nodup_cons.1 h.nodup).1
    · exact fun hl => h.apart k' g hg (List.mem_cons_of_mem f hl)
  inj k₁ k₂ g h₁ h₂ := by
    rw [hplace] at h₁ h₂
    split_ifs at h₁ h₂ with e₁ e₂ e₂
    · rw [e₁, e₂]
    · cases h₁
      exact absurd List.mem_cons_self (h.apart k₂ f h₂)
    · cases h₂
      exact absurd List.mem_cons_self (h.apart k₁ f h₁)
    · exact h.inj k₁ k₂ g h₁ h₂
  covered g := by
    rw [h.covered g]
    constructor
    · rintro (hg | ⟨k', hg⟩)
      · rcases List.mem_cons.1 hg with rfl | hg
        · exact .inr ⟨k, by rw [hplace, if_pos rfl]⟩
        · exact .inl hg
      · refine .inr ⟨k', ?_⟩
        rw [hplace, if_neg, hg]
        rintro rfl
        rw [hk] at hg
        cases hg
    · rintro (hg | ⟨k', hg⟩)
      · exact .inl (List.mem_cons_of_mem f hg)
      · rw [hplace] at hg
        split_ifs at hg with he
        · cases hg
          exact .inl List.mem_cons_self
        · exact .inr ⟨k', hg⟩

/-- Everything at the places `X` back to the list. -/
theorem giveAll {X : κ → Prop} [DecidablePred X] {fs : List α} (h : Ledger given l place)
    (hnodup : fs.Nodup) (hfs : ∀ f, f ∈ fs ↔ ∃ k, X k ∧ place k = some f)
    (hplace : ∀ k, place' k = if X k then none else place k) : Ledger given (fs ++ l) place' where
  nodup := by
    refine List.nodup_append.2 ⟨hnodup, h.nodup, ?_⟩
    rintro f hf g hg rfl
    obtain ⟨k, -, hk⟩ := (hfs f).1 hf
    exact h.apart k f hk hg
  apart k f hf hmem := by
    rw [hplace] at hf
    split_ifs at hf with hX
    rcases List.mem_append.1 hmem with hm | hm
    · obtain ⟨k', hX', hk'⟩ := (hfs f).1 hm
      rw [h.inj k' k f hk' hf] at hX'
      exact hX hX'
    · exact h.apart k f hf hm
  inj k₁ k₂ g h₁ h₂ := by
    rw [hplace] at h₁ h₂
    split_ifs at h₁ h₂
    exact h.inj k₁ k₂ g h₁ h₂
  covered g := by
    rw [h.covered g]
    constructor
    · rintro (hg | ⟨k, hk⟩)
      · exact .inl (List.mem_append_right fs hg)
      · by_cases hX : X k
        · exact .inl (List.mem_append_left l ((hfs g).2 ⟨k, hX, hk⟩))
        · exact .inr ⟨k, by rw [hplace, if_neg hX, hk]⟩
    · rintro (hg | ⟨k, hk⟩)
      · rcases List.mem_append.1 hg with hg | hg
        · obtain ⟨k, -, hk⟩ := (hfs g).1 hg
          exact .inr ⟨k, hk⟩
        · exact .inl hg
      · rw [hplace] at hk
        split_ifs at hk
        exact .inr ⟨k, hk⟩

theorem give [DecidableEq κ] (h : Ledger given l place) (hk : place k = some f)
    (hplace : ∀ k', place' k' = if k' = k then none else place k') :
    Ledger given (f :: l) place' := by
  have hmem : ∀ g, g ∈ [f] ↔ ∃ k', k' = k ∧ place k' = some g := by
    intro g
    rw [List.mem_singleton]
    constructor
    · rintro rfl
      exact ⟨k, rfl, hk⟩
    · rintro ⟨k', rfl, hg⟩
      rw [hk] at hg
      cases hg
      rfl
  exact h.giveAll (List.nodup_singleton f) hmem hplace

/-- The same places under other names; names that stand for no place hold nothing. -/
theorem reindex {place' : κ' → Option α} (h : Ledger given l place) (e : κ' → Option κ)
    (hplace : ∀ k', place' k' = (e k').bind place)
    (hinj : ∀ k₁ k₂ k, e k₁ = some k → e k₂ = some k → (place k).isSome → k₁ = k₂)
    (hsurj : ∀ k, (place k).isSome → ∃ k', e k' = some k) : Ledger given l place' where
  nodup := h.nodup
  apart k' f hf := by
    rw [hplace, Option.bind_eq_some_iff] at hf
    obtain ⟨k, -, hk⟩ := hf
    exact h.apart k f hk
  inj k₁ k₂ f h₁ h₂ := by
    rw [hplace, Option.bind_eq_some_iff] at h₁ h₂
    obtain ⟨a, ha, hfa⟩ := h₁
    obtain ⟨b, hb, hfb⟩ := h₂
    rw [← h.inj a b f hfa hfb] at hb
    exact hinj k₁ k₂ a ha hb (by rw [hfa]; rfl)
  covered f := by
    rw [h.covered f]
    refine or_congr_right ⟨?_, ?_⟩
    · rintro ⟨k, hk⟩
      obtain ⟨k', hk'⟩ := hsurj k (by rw [hk]; rfl)
      exact ⟨k', by rw [hplace, hk', Option.bind_some, hk]⟩
    · rintro ⟨k', hk'⟩
      rw [hplace, Option.bind_eq_some_iff] at hk'
      obtain ⟨k, -, hk⟩ := hk'
      exact ⟨k, hk⟩

end Ledger

end Xv6.Lib
