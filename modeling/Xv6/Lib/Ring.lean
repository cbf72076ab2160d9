import Mathlib

/-!
# Circular linked lists

A linked list in memory is a function `next` on nodes.  `Links next x l` says that the nodes
`l` follow `x`, one after the other; a ring is such a list whose last node leads back to the
first.

* `Links` — the nodes that follow a node; they end at `l.getLastD x`.
* `Ring` — a list that closes, with its predecessors unique (`Ring.next_inj`).
* `Ring.walk` — from any node of a ring one comes around to it past all the others.
* `Tail.move` — the rest of a list hangs on whichever node leads into it.
-/

namespace Xv6.Lib

variable {ν : Type} {next next' : ν → ν} {x y z u : ν} {l l' : List ν}

/-- The nodes `l` follow `x`. -/
def Links (next : ν → ν) : ν → List ν → Prop
  | _, [] => True
  | x, y :: l => next x = y ∧ Links next y l

theorem getLastD_append : (l ++ l').getLastD x = l'.getLastD (l.getLastD x) := by
  induction l generalizing x with
  | nil => rfl
  | cons y l ih => rw [List.cons_append, List.getLastD_cons, List.getLastD_cons, ih]

theorem links_append : Links next x (l ++ l') ↔ Links next x l ∧ Links next (l.getLastD x) l' := by
  induction l generalizing x with
  | nil => exact ⟨fun h => ⟨trivial, h⟩, fun h => h.2⟩
  | cons y l ih => rw [List.cons_append, Links, ih, Links, List.getLastD_cons, and_assoc]

/-- Only the nodes before the last matter. -/
theorem Links.congr (h : Links next x l) (hnext : ∀ u ∈ x :: l, u ≠ l.getLastD x → next' u = next u)
    (hd : (x :: l).Nodup) : Links next' x l := by
  induction l generalizing x with
  | nil => trivial
  | cons y l ih =>
    rw [List.getLastD_cons] at hnext
    have hx : x ≠ l.getLastD y := fun he => (List.nodup_cons.1 hd).1 (he ▸ List.getLastD_mem_cons)
    refine ⟨(hnext x List.mem_cons_self hx).trans h.1,
      ih h.2 (fun u hu => ?_) (List.nodup_cons.1 hd).2⟩
    exact hnext u (List.mem_cons_of_mem x hu)

/-- A node before the last is followed by the next in the list. -/
theorem Links.split (h : Links next x l) (hu : u ∈ x :: l) (hl : u ≠ l.getLastD x) :
    ∃ l₁ l₂, x :: l = l₁ ++ u :: next u :: l₂ := by
  induction l generalizing x with
  | nil => exact absurd (List.mem_singleton.1 hu) hl
  | cons y l ih =>
    rw [List.getLastD_cons] at hl
    by_cases hux : u = x
    · exact ⟨[], l, by rw [hux, h.1]; rfl⟩
    · obtain ⟨l₁, l₂, he⟩ := ih h.2 ((List.mem_cons.1 hu).resolve_left hux) hl
      exact ⟨x :: l₁, l₂, by rw [he]; rfl⟩

/-- The nodes after `x`, up to one that leads to `z`. -/
def Tail (next : ν → ν) (x : ν) (l : List ν) (z : ν) : Prop :=
  Links next x l ∧ next (l.getLastD x) = z

theorem tail_cons : Tail next x (y :: l) z ↔ next x = y ∧ Tail next y l z := by
  rw [Tail, Tail, List.getLastD_cons, Links, and_assoc]

theorem tail_append : Tail next x (l ++ l') z ↔ Links next x l ∧ Tail next (l.getLastD x) l' z := by
  rw [Tail, links_append, getLastD_append, Tail, and_assoc]

/-- The rest of a list hangs on whichever node leads into it. -/
theorem Tail.move (h : Tail next x l z) (hnext : ∀ u ∈ l, next' u = next u)
    (hy : next' y = next x) :
    Tail next' y l z := by
  cases l with
  | nil => exact ⟨trivial, hy.trans h.2⟩
  | cons w l =>
    obtain ⟨hx, hl, hlast⟩ := tail_cons.1 h
    refine tail_cons.2 ⟨hy.trans hx, ?_, (hnext _ List.getLastD_mem_cons).trans hlast⟩
    clear h hx hlast hy
    induction l generalizing w with
    | nil => trivial
    | cons v l ih =>
      exact ⟨(hnext w List.mem_cons_self).trans hl.1,
        ih v (fun u hu => hnext u (List.mem_cons_of_mem w hu)) hl.2⟩

/-- A node leads into the rest of its list, or to where that leads. -/
theorem Tail.next_mem (h : Tail next x l z) : next x ∈ l ∨ next x = z := by
  cases l with
  | nil => exact .inr h.2
  | cons y l => exact .inl ((tail_cons.1 h).1 ▸ List.mem_cons_self)

/-- The list closes. -/
abbrev Ring (next : ν → ν) (x : ν) (l : List ν) : Prop := Tail next x l x

theorem Links.map (h : Links next x l) : (x :: l).map next = l ++ [next (l.getLastD x)] := by
  induction l generalizing x with
  | nil => rfl
  | cons y l ih =>
    rw [List.map_cons, ih h.2, h.1, List.getLastD_cons]
    rfl

/-- A node of a ring is led to by one node only. -/
theorem Ring.next_inj (h : Ring next x l) (hd : (x :: l).Nodup) (hy : y ∈ x :: l) (hz : z ∈ x :: l)
    (he : next y = next z) : y = z := by
  refine List.inj_on_of_nodup_map ?_ hy hz he
  rw [h.1.map, h.2]
  exact (List.perm_append_singleton x l).nodup_iff.2 hd

/-- From a node of a ring one comes around to it, past all the others. -/
theorem Ring.walk (h : Ring next x l) {a b : List ν} (he : x :: l = a ++ u :: b) :
    Links next u (b ++ a ++ [u]) := by
  cases a with
  | nil =>
    rw [List.nil_append, List.cons.injEq] at he
    obtain ⟨rfl, rfl⟩ := he
    rw [List.append_nil, links_append]
    exact ⟨h.1, h.2, trivial⟩
  | cons w a =>
    rw [List.cons_append, List.cons.injEq] at he
    obtain ⟨rfl, rfl⟩ := he
    obtain ⟨hlinks, hclose⟩ := h
    rw [links_append] at hlinks
    obtain ⟨ha, hu, hb⟩ := hlinks
    rw [getLastD_append, List.getLastD_cons] at hclose
    rw [List.append_assoc, links_append, List.cons_append]
    refine ⟨hb, ?_⟩
    exact ⟨hclose, links_append.2 ⟨ha, hu, trivial⟩⟩

/-- The way around, as a list without repetitions that ends where it began. -/
theorem Ring.around (h : Ring next x l) (hd : (x :: l).Nodup) (hu : u ∈ x :: l) :
    ∃ w, Links next u w ∧ w.getLastD u = u ∧ w.Nodup ∧ ∀ v, v ∈ w ↔ v ∈ x :: l := by
  obtain ⟨a, b, he⟩ := List.append_of_mem hu
  have hperm : (b ++ a ++ [u]).Perm (x :: l) := by
    rw [he]
    exact (List.perm_append_singleton u (b ++ a)).trans
      ((List.perm_append_comm.cons u).trans List.perm_middle.symm)
  exact ⟨b ++ a ++ [u], h.walk he, List.getLastD_concat, hperm.nodup_iff.2 hd,
    fun v => hperm.mem_iff⟩

/-- The way from one node of a ring to another. -/
theorem Ring.path (h : Ring next x l) (hd : (x :: l).Nodup) (hu : u ∈ x :: l) (hy : y ∈ x :: l) :
    ∃ w, Links next u w ∧ w.getLastD u = y ∧ (u :: w).Nodup ∧ ∀ v ∈ u :: w, v ∈ x :: l := by
  by_cases hyu : y = u
  · refine ⟨[], trivial, hyu.symm, List.nodup_singleton u, fun v hv => ?_⟩
    rw [List.mem_singleton.1 hv]
    exact hu
  · obtain ⟨w, hlinks, hlast, hnodup, hmem⟩ := h.around hd hu
    obtain ⟨w₁, w₂, rfl⟩ := List.append_of_mem ((hmem y).2 hy)
    rw [List.append_cons] at hlinks hlast hnodup
    rw [getLastD_append, List.getLastD_concat] at hlast
    -- the way goes on from `y`, and only at its end comes back
    have hback : u ∈ w₂ := by
      have hin := List.getLastD_mem_cons (a := y) (l := w₂)
      rw [hlast] at hin
      exact (List.mem_cons.1 hin).resolve_left (Ne.symm hyu)
    have hdisj := List.nodup_append.1 hnodup
    refine ⟨w₁ ++ [y], (links_append.1 hlinks).1, List.getLastD_concat,
      List.nodup_cons.2 ⟨fun hin => ?_, hdisj.1⟩, fun v hv => ?_⟩
    · exact hdisj.2.2 u hin u hback rfl
    · rcases List.mem_cons.1 hv with rfl | hv
      · exact hu
      · refine (hmem v).1 ?_
        rw [List.append_cons]
        exact List.mem_append_left _ hv

end Xv6.Lib
