import Mathlib

/-!
# Trees kept in a heap

A heap of nodes with numbered edges, `G : ν → ι → Option ν`, is read as a tree from a
root: a path of indices leads to a node, or nowhere.  Code changes such a tree one
edge at a time, and what it changes is said of all paths at once.

* `follow` — the node at the end of a path.
* `follow_congr` — only the edges along a path matter.
* `Alone` — on the paths considered no other leads to the same node.
* `follow_setEdge` — what one changed edge does to every path.
-/

namespace Xv6.Lib

variable {ν ι : Type}

/-- The node at the end of a path from `t`. -/
def follow (G : ν → ι → Option ν) (t : ν) : List ι → Option ν
  | [] => some t
  | i :: p => (G t i).bind fun c => follow G c p

variable {G G' : ν → ι → Option ν} {t u f : ν} {p q : List ι} {i : ι}

@[simp] theorem follow_nil : follow G t [] = some t := rfl

theorem follow_cons : follow G t (i :: p) = (G t i).bind fun c => follow G c p := rfl

theorem follow_append : follow G t (p ++ q) = (follow G t p).bind fun c => follow G c q := by
  induction p generalizing t with
  | nil => rfl
  | cons i p ih =>
    rw [List.cons_append, follow_cons, follow_cons, Option.bind_assoc]
    congr 1
    funext c
    exact ih

theorem follow_concat (h : follow G t p = some u) : follow G t (p ++ [i]) = G u i := by
  rw [follow_append, h, Option.bind_some, follow_cons]
  cases G u i <;> rfl

/-- A path that leads somewhere leads somewhere all the way. -/
theorem follow_of_append (h : follow G t (p ++ q) = some u) : ∃ c, follow G t p = some c := by
  rw [follow_append, Option.bind_eq_some_iff] at h
  exact ⟨h.choose, h.choose_spec.1⟩

/-- Only the edges along a path matter. -/
theorem follow_congr
    (h : ∀ p i s, q = p ++ i :: s → ∀ u, follow G t p = some u → G' u i = G u i) :
    follow G' t q = follow G t q := by
  induction q generalizing t with
  | nil => rfl
  | cons i q ih =>
    rw [follow_cons, follow_cons, h [] i q rfl t rfl]
    cases hc : G t i with
    | none => rfl
    | some c =>
      refine ih fun p j s hq u hu => h (i :: p) j s (by rw [hq]; rfl) u ?_
      rw [follow_cons, hc]
      exact hu

/-- Of the paths considered, only `p` leads to where it leads. -/
def Alone (G : ν → ι → Option ν) (r : ν) (ok : List ι → Prop) (p : List ι) : Prop :=
  ∀ q, ok q → follow G r q = follow G r p → q = p

/-- **One changed edge.**  The edge `i` of the node at `p` is set, and perhaps those of
nodes `f` that no inner path considered leads to; paths over the edge go where the new
edge goes, and the others where they went. -/
theorem follow_setEdge [DecidableEq ι] {r : ν} {P : List ι → Prop} {N : ν → Prop}
    (hok : ∀ p s, P (p ++ s) → P p) (hokp : P p) (hp : follow G r p = some t)
    (halone : Alone G r P p) (hfresh : ∀ q u, P q → follow G r q = some u → ¬N u)
    (hsame : ∀ u j, ¬N u → (u = t → j ≠ i) → G' u j = G u j)
    (hq : ∀ p' j s, q = p' ++ j :: s → P p') :
    follow G' r q = if p ++ [i] <+: q then (G' t i).bind fun c =>
      follow G' c (q.drop (p.length + 1))
      else follow G r q := by
  -- away from the edge every step is an old one
  have hrest : ∀ q, (∀ p' j s, q = p' ++ j :: s → P p') → ¬p ++ [i] <+: q →
      follow G' r q = follow G r q := by
    intro q hq hnot
    refine follow_congr fun p' j s he u hu => hsame u j (hfresh p' u (hq p' j s he) hu) ?_
    rintro rfl rfl
    have hsame' := halone p' (hq p' j s he) (hu.trans hp.symm)
    rw [hsame'] at he
    exact hnot ⟨s, by rw [he, List.append_assoc]; rfl⟩
  split_ifs with hpre
  · obtain ⟨s, rfl⟩ := hpre
    have hlen : ¬p ++ [i] <+: p := fun h => by
      have := h.length_le
      simp at this
    have hp' : follow G' r p = some t := by
      rw [hrest p (fun p' j s he => hok p' (j :: s) (he ▸ hokp)) hlen, hp]
    rw [List.append_assoc, follow_append, hp', Option.bind_some, List.singleton_append, follow_cons,
      List.drop_append, List.drop_of_length_le (Nat.le_succ _), Nat.add_sub_cancel_left]
    rfl
  · exact hrest q hq hpre

end Xv6.Lib
