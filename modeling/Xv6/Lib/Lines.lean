import Mathlib

/-!
# Terminated records of a stream

A stream is cut into records by a terminator `d`: `records d s` are the records that end in `s`,
each with its terminator, and `remainder d s` is what follows the last of them.

* `byRecord` — induction over a stream, one record at a time.
* `flatten_records_append_remainder` — the records and the remainder are the stream.
* `records_append` — what comes later completes the remainder, and changes no record.
-/

namespace Xv6.Lib

variable {α : Type} [DecidableEq α] {d : α} {l s t : List α}

/-- The records that end in the stream, each with its terminator. -/
def records (d : α) : List α → List (List α)
  | [] => []
  | c :: s =>
    if c = d then [c] :: records d s
    else match records d s with
      | [] => []
      | l :: ls => (c :: l) :: ls

/-- What follows the last terminator. -/
def remainder (d : α) : List α → List α
  | [] => []
  | c :: s => if d ∈ c :: s then remainder d s else c :: s

@[simp] theorem records_nil : records d [] = [] := rfl

theorem records_of_notMem (h : d ∉ s) : records d s = [] := by
  induction s with
  | nil => rfl
  | cons c s ih =>
    simp only [List.mem_cons, not_or] at h
    simp only [records, Ne.symm h.1, if_false, ih h.2]

theorem remainder_of_notMem (h : d ∉ s) : remainder d s = s := by
  cases s with
  | nil => rfl
  | cons c s => rw [remainder, if_neg h]

theorem records_line (h : d ∉ l) : records d (l ++ d :: s) = (l ++ [d]) :: records d s := by
  induction l with
  | nil => simp [records]
  | cons c l ih =>
    simp only [List.mem_cons, not_or] at h
    simp only [List.cons_append, records, Ne.symm h.1, if_false, ih h.2]

theorem remainder_line : remainder d (l ++ d :: s) = remainder d s := by
  induction l with
  | nil => simp [remainder]
  | cons c l ih => simp [remainder, ih]

/-- Induction over a stream, one record at a time. -/
@[elab_as_elim]
theorem byRecord {motive : List α → Prop} (d : α) (rest : ∀ s, d ∉ s → motive s)
    (line : ∀ l s, d ∉ l → motive s → motive (l ++ d :: s)) (s : List α) : motive s := by
  induction h : s.length using Nat.strongRecOn generalizing s with
  | _ n ih =>
    by_cases hd : d ∈ s
    · obtain ⟨l, s', rfl, hl⟩ := List.eq_append_cons_of_mem hd
      refine line l s' hl (ih s'.length ?_ s' rfl)
      simp only [List.length_append, List.length_cons] at h
      omega
    · exact rest s hd

theorem notMem_remainder (d : α) (s : List α) : d ∉ remainder d s := by
  induction s using byRecord d with
  | rest s h => rwa [remainder_of_notMem h]
  | line l s _ ih => rwa [remainder_line]

@[simp] theorem flatten_records_append_remainder (d : α) (s : List α) :
    (records d s).flatten ++ remainder d s = s := by
  induction s using byRecord d with
  | rest s h => simp [records_of_notMem h, remainder_of_notMem h]
  | line l s h ih => simp [records_line h, remainder_line, ih]

theorem length_flatten_records (d : α) (s : List α) :
    (records d s).flatten.length + (remainder d s).length = s.length := by
  rw [← List.length_append, flatten_records_append_remainder]

theorem length_remainder_lt (h : d ∈ s) : (remainder d s).length < s.length := by
  obtain ⟨l, s', rfl, -⟩ := List.eq_append_cons_of_mem h
  have hlen := length_flatten_records d s'
  rw [remainder_line, List.length_append, List.length_cons]
  omega

/-- **What comes later completes the remainder, and changes no record.** -/
theorem records_append (d : α) (s t : List α) :
    records d (s ++ t) = records d s ++ records d (remainder d s ++ t) := by
  induction s using byRecord d with
  | rest s h => simp [records_of_notMem h, remainder_of_notMem h]
  | line l s h ih =>
    rw [List.append_assoc, List.cons_append, records_line h, ih, records_line h, remainder_line,
      List.cons_append]

/-- A stream that ends a record leaves the remainder it leaves behind any other. -/
theorem remainder_append (h : d ∈ t) : remainder d (s ++ t) = remainder d t := by
  obtain ⟨l, t', rfl, -⟩ := List.eq_append_cons_of_mem h
  rw [← List.append_assoc, remainder_line, remainder_line]

/-- All that comes before a terminator is in some record. -/
theorem length_flatten_records_append (h : d ∈ t) :
    (records d (s ++ t)).flatten.length = s.length + (records d t).flatten.length := by
  have hboth := length_flatten_records d (s ++ t)
  have ht := length_flatten_records d t
  rw [remainder_append h, List.length_append] at hboth
  omega

theorem length_flatten_records_le (d : α) (s t : List α) :
    (records d t).flatten.length ≤ (records d (s ++ t)).flatten.length := by
  by_cases h : d ∈ t
  · rw [length_flatten_records_append h]
    exact Nat.le_add_left _ _
  · simp [records_of_notMem h]

end Xv6.Lib
