import Xv6.Lib.Ring

/-!
# Linked queues that end in a null pointer

A queue in memory is a pointer to its first node and, in every node, a pointer to the next.
The usual way to append walks along the *places* that hold the pointers, the head and then one
link after the other, until it finds a null pointer there, and stores the new node in that place.

* `Chain` — the nodes from a pointer on.
* `Linked` — the pointers; `Linked.seek` — the walk to the place of the null pointer.
* `Lists.append`, `Lists.pop` — what appending and removing the first node do to the list.
-/

namespace Xv6.Lib

/-- The pointers of a queue. -/
structure Linked (ν : Type) where
  head : Option ν
  next : ν → Option ν

namespace Linked

variable {ν : Type} {next next' : ν → Option ν} {p : Option ν} {x b : ν} {l : List ν}

/-- The nodes `l` are those from the pointer `p` on. -/
def Chain (next : ν → Option ν) : Option ν → List ν → Prop
  | p, [] => p = none
  | p, x :: l => p = some x ∧ Chain next (next x) l

/-- Only the links of its nodes matter. -/
theorem Chain.congr (h : Chain next p l) (hnext : ∀ x ∈ l, next' x = next x) : Chain next' p l := by
  induction l generalizing p with
  | nil => exact h
  | cons x l ih =>
    refine ⟨h.1, ?_⟩
    rw [hnext x List.mem_cons_self]
    exact ih h.2 fun y hy => hnext y (List.mem_cons_of_mem x hy)

theorem Chain.head? (h : Chain next p l) : p = l.head? := by
  cases l with
  | nil => exact h
  | cons x l => exact h.1

/-- A node in front of the null pointer. -/
theorem Chain.concat [DecidableEq ν] (h : Chain next p (x :: l)) (hd : (x :: l).Nodup)
    (hb : b ∉ x :: l)
    (hnull : next b = none) :
      Chain (Function.update next (l.getLastD x) (some b)) p (x :: l ++ [b]) := by
  induction l generalizing p x with
  | nil =>
    have hbx : b ≠ x := fun he => hb (he ▸ List.mem_cons_self)
    refine ⟨h.1, ?_, ?_⟩
    · rw [List.getLastD_nil, Function.update_self]
    · rw [List.getLastD_nil, Function.update_of_ne hbx]
      exact hnull
  | cons y l ih =>
    obtain ⟨hx, hd'⟩ := List.nodup_cons.1 hd
    have hne : x ≠ l.getLastD y := fun he => hx (he ▸ List.getLastD_mem_cons)
    rw [List.getLastD_cons]
    refine ⟨h.1, ?_⟩
    rw [Function.update_of_ne hne]
    exact ih h.2 hd' fun hmem => hb (List.mem_cons_of_mem x hmem)

/-- A place that holds a pointer. -/
inductive Slot (ν : Type) where
  | head
  | next (x : ν)

/-- The pointer in a place. -/
def load (q : Linked ν) : Slot ν → Option ν
  | .head => q.head
  | .next x => q.next x

/-- Walk to the place of the null pointer. -/
def seek (q : Linked ν) : ℕ → Slot ν → Option (Slot ν)
  | 0, _ => none
  | n + 1, pp =>
    match q.load pp with
    | none => some pp
    | some x => q.seek n (.next x)

/-- Where the walk ends. -/
def lastSlot : List ν → Slot ν
  | [] => .head
  | x :: l => .next (l.getLastD x)

variable [DecidableEq ν]

/-- Put a pointer in a place. -/
def store (q : Linked ν) : Slot ν → Option ν → Linked ν
  | .head, p => { q with head := p }
  | .next x, p => { q with next := Function.update q.next x p }

/-- The queue is this list. -/
structure Lists (q : Linked ν) (l : List ν) : Prop where
  chain : Chain q.next q.head l
  nodup : l.Nodup

variable {q : Linked ν}

omit [DecidableEq ν] in
theorem seek_next {n : ℕ} (h : Chain q.next (q.next x) l) (hn : l.length < n) :
    q.seek n (.next x) = some (.next (l.getLastD x)) := by
  induction l generalizing x n with
  | nil =>
    obtain ⟨n, rfl⟩ := Nat.exists_eq_add_of_lt hn
    have hnull : q.load (.next x) = none := h
    simp only [seek, hnull, List.getLastD_nil]
  | cons y l ih =>
    rw [List.length_cons] at hn
    obtain ⟨n, rfl⟩ : ∃ k, n = k + 1 := ⟨n - 1, by omega⟩
    have hy : q.load (.next x) = some y := h.1
    simp only [seek, hy, List.getLastD_cons]
    exact ih h.2 (by omega)

namespace Lists

omit [DecidableEq ν] in
theorem seek (h : q.Lists l) {n : ℕ} (hn : l.length < n) : q.seek n .head = some (lastSlot l) := by
  obtain ⟨n, rfl⟩ : ∃ k, n = k + 1 := ⟨n - 1, by omega⟩
  cases l with
  | nil =>
    have hnull : q.load .head = none := h.chain
    simp only [Linked.seek, hnull, lastSlot]
  | cons x l =>
    have hx : q.load .head = some x := h.chain.1
    simp only [Linked.seek, hx, lastSlot]
    exact seek_next h.chain.2 (by rw [List.length_cons] at hn; omega)

/-- The link of a node outside of the queue is nobody's concern. -/
theorem unlink (h : q.Lists l) (hb : b ∉ l) (p : Option ν) : (q.store (.next b) p).Lists l where
  chain := h.chain.congr fun x hx => Function.update_of_ne (fun he => hb (by rw [← he]; exact hx)) _
    _
  nodup := h.nodup

/-- **Appending a node.** -/
theorem append (h : q.Lists l) (hb : b ∉ l) (hnull : q.next b = none) :
    (q.store (lastSlot l) (some b)).Lists (l ++ [b]) where
  chain := by
    cases l with
    | nil => exact ⟨rfl, hnull⟩
    | cons x l => exact h.chain.concat h.nodup hb hnull
  nodup := (List.perm_append_singleton b l).nodup_iff.2 (List.nodup_cons.2 ⟨hb, h.nodup⟩)

omit [DecidableEq ν] in
/-- **Removing the first node.** -/
theorem pop (h : q.Lists (x :: l)) : Lists { q with head := q.next x } l where
  chain := h.chain.2
  nodup := (List.nodup_cons.1 h.nodup).2

end Lists

end Linked

end Xv6.Lib
