import Xv6.Lib.Ring

/-!
# Circular doubly linked lists

Each node has a next and a previous one.  `Cycle d h l` says that the nodes `l` stand between `h`
and itself, each joined to its neighbours both ways.

* `unlink`, `pushFront` — the pointer writes that take a node out, and that put one behind `h`.
* `Cycle.unlink`, `Cycle.pushFront` — they leave a cycle, also if both neighbours are `h`;
  `Cycle.moveFront` — one after the other they move a node to the front.
* `Cycle.ring`, `Cycle.prev_next` — going around, and that `prev` undoes `next`.
* `seek`, `Cycle.seek_next`, `Cycle.seek_prev` — a search that follows the pointers until it is
  back at `h` finds what a search in the list does.
-/

namespace Xv6.Lib

open Function List

/-- The pointers of all nodes. -/
@[ext] structure Dll (ν : Type) where
  next : ν → ν
  prev : ν → ν

namespace Dll

variable {ν : Type} [DecidableEq ν]

/-- `(*x).next = y`. -/
def setNext (d : Dll ν) (x y : ν) : Dll ν := { d with next := update d.next x y }

/-- `(*x).prev = y`. -/
def setPrev (d : Dll ν) (x y : ν) : Dll ν := { d with prev := update d.prev x y }

/-- Join the neighbours of a node. -/
def unlink (d : Dll ν) (b : ν) : Dll ν :=
  let d := d.setPrev (d.next b) (d.prev b)
  d.setNext (d.prev b) (d.next b)

/-- Put a node behind `h`. -/
def pushFront (d : Dll ν) (h b : ν) : Dll ν :=
  let d := d.setNext b (d.next h)
  let d := d.setPrev b h
  let d := d.setPrev (d.next h) b
  d.setNext h b

/-- Two nodes are joined both ways. -/
def Joined (d : Dll ν) (x y : ν) : Prop := d.next x = y ∧ d.prev y = x

/-- The nodes `l` stand between `h` and itself. -/
def Cycle (d : Dll ν) (h : ν) (l : List ν) : Prop := List.IsChain d.Joined (h :: (l ++ [h]))

variable {d d' : Dll ν} {h b : ν} {l l₁ l₂ : List ν}

omit [DecidableEq ν] in
/-- The last node's `next` and the first node's `prev` do not matter. -/
theorem isChain_congr {c : List ν} (hc : List.IsChain d.Joined c)
    (hnext : ∀ x ∈ c.dropLast, d'.next x = d.next x) (hprev : ∀ y ∈ c.tail, d'.prev y = d.prev y) :
    List.IsChain d'.Joined c := by
  induction c with
  | nil => exact List.IsChain.nil
  | cons x c ih =>
    cases c with
    | nil => exact List.IsChain.singleton x
    | cons y c =>
      rw [isChain_cons_cons] at hc ⊢
      obtain ⟨⟨hxy, hyx⟩, hc⟩ := hc
      have hx := hnext x (by simp)
      have hy := hprev y (by simp)
      refine ⟨⟨hx.trans hxy, hy.trans hyx⟩, ih hc (fun z hz => ?_) fun z hz => ?_⟩
      · exact hnext z (by simp [hz])
      · exact hprev z (mem_cons_of_mem _ hz)

/-- **Taking a node out leaves a cycle.** -/
theorem Cycle.unlink (hc : d.Cycle h (l₁ ++ b :: l₂)) (hd : (h :: (l₁ ++ b :: l₂)).Nodup) :
    (d.unlink b).Cycle h (l₁ ++ l₂) := by
  -- the neighbours `x` and `y` may both be `h`
  obtain ⟨a, x, hx⟩ : ∃ a x, h :: l₁ = a ++ [x] :=
    ⟨_, _, (dropLast_concat_getLast (cons_ne_nil h l₁)).symm⟩
  obtain ⟨y, c, hy⟩ : ∃ y c, l₂ ++ [h] = y :: c := exists_cons_of_ne_nil (by simp)
  have hold : h :: (l₁ ++ b :: l₂ ++ [h]) = a ++ x :: b :: y :: c := by
    rw [append_assoc, cons_append, hy, ← cons_append, hx, append_assoc]
    rfl
  have hnew : h :: (l₁ ++ l₂ ++ [h]) = a ++ x :: y :: c := by
    rw [append_assoc, hy, ← cons_append, hx, append_assoc]
    rfl
  rw [Cycle, hold, isChain_append_cons_cons, isChain_cons_cons] at hc
  obtain ⟨hfront, ⟨hxb, hbx⟩, ⟨hby, hyb⟩, hback⟩ := hc
  -- no node occurs twice
  rw [← cons_append, nodup_append] at hd
  obtain ⟨hfrontd, hbackd, hdisj⟩ := hd
  have hxmem : x ∈ h :: l₁ := by simp [hx]
  have hymem : y ∈ l₂ ∨ y = h := by
    have : y ∈ l₂ ++ [h] := by simp [hy]
    simpa using this
  have hyb' : b ≠ y := by
    rintro rfl
    rcases hymem with hin | rfl
    · exact (nodup_cons.1 hbackd).1 hin
    · exact hdisj b mem_cons_self b mem_cons_self rfl
  have hxa : x ∉ a := by
    rw [hx, nodup_append] at hfrontd
    exact fun hin => hfrontd.2.2 x hin x (mem_singleton_self x) rfl
  have hyl : y ∉ l₁ := by
    rcases hymem with hin | rfl
    · exact fun hin' => hdisj y (mem_cons_of_mem _ hin') y (mem_cons_of_mem _ hin) rfl
    · exact (nodup_cons.1 hfrontd).1
  have hxl : x ∉ l₂ := fun hin => hdisj x hxmem x (mem_cons_of_mem _ hin) rfl
  have hyc : y ∉ c := by
    have hh : h ∉ l₂ := fun hin => hdisj h mem_cons_self h (mem_cons_of_mem _ hin) rfl
    have hnodup : (l₂ ++ [h]).Nodup :=
      (nodup_cons.2 ⟨hh, (nodup_cons.1 hbackd).2⟩).perm
        (perm_append_singleton h l₂).symm
    rw [hy] at hnodup
    exact (nodup_cons.1 hnodup).1
  have hunlink : d.unlink b = ⟨update d.next x y, update d.prev y x⟩ := by
    simp [Dll.unlink, setPrev, setNext, hby, hbx, update_of_ne hyb']
  rw [Cycle, hnew, hunlink, isChain_append_cons_cons]
  refine ⟨isChain_congr hfront ?_ ?_, ⟨update_self .., update_self ..⟩, isChain_congr hback ?_ ?_⟩
  · intro z hz
    rw [dropLast_concat] at hz
    exact update_of_ne (ne_of_mem_of_not_mem hz hxa) _ _
  · intro z hz
    rw [← hx, List.tail_cons] at hz
    exact update_of_ne (ne_of_mem_of_not_mem hz hyl) _ _
  · intro z hz
    rw [← hy, dropLast_concat] at hz
    exact update_of_ne (ne_of_mem_of_not_mem hz hxl) _ _
  · intro z hz
    exact update_of_ne (ne_of_mem_of_not_mem hz hyc) _ _

/-- **Putting a node behind `h` leaves a cycle.** -/
theorem Cycle.pushFront (hc : d.Cycle h l) (hd : (h :: b :: l).Nodup) :
    (d.pushFront h b).Cycle h (b :: l) := by
  obtain ⟨y, c, hy⟩ : ∃ y c, l ++ [h] = y :: c := exists_cons_of_ne_nil (by simp)
  rw [Cycle, hy, isChain_cons_cons] at hc
  obtain ⟨⟨hnext, hprev⟩, hback⟩ := hc
  have hhb : h ≠ b := fun he => (nodup_cons.1 hd).1 (he ▸ mem_cons_self)
  have hhl : h ∉ l := fun hin => (nodup_cons.1 hd).1 (mem_cons_of_mem _ hin)
  have hbl : b ∉ l := (nodup_cons.1 (nodup_cons.1 hd).2).1
  have hnodup : (y :: c).Nodup := by
    rw [← hy]
    exact (nodup_cons.2 ⟨hhl, (nodup_cons.1 (nodup_cons.1 hd).2).2⟩).perm
      (perm_append_singleton h l).symm
  have hby : b ∉ y :: c := by
    rw [← hy]
    simp [hbl, hhb.symm]
  have hyb : b ≠ y := fun he => hby (he ▸ mem_cons_self)
  have hpush : d.pushFront h b = ⟨update (update d.next b y) h b,
      update (update d.prev b h) y b⟩ := by
    simp [Dll.pushFront, setPrev, setNext, hnext, update_of_ne hhb]
  rw [Cycle, cons_append, hy, hpush, isChain_cons_cons, isChain_cons_cons]
  refine ⟨⟨update_self .., ?_⟩, ⟨?_, update_self ..⟩, isChain_congr hback ?_ ?_⟩
  · simp [update_of_ne hyb]
  · simp [update_of_ne hhb.symm]
  · intro z hz
    rw [← hy, dropLast_concat] at hz
    have hzh : z ≠ h := fun he => hhl (he ▸ hz)
    have hzb : z ≠ b := fun he => hbl (he ▸ hz)
    simp [hzh, hzb]
  · intro z hz
    have hzy : z ≠ y := fun he => (nodup_cons.1 hnodup).1 (he ▸ hz)
    have hzb : z ≠ b := fun he => hby (he ▸ mem_cons_of_mem _ hz)
    simp [hzy, hzb]

/-- **A node is taken out and put behind `h`.** -/
theorem Cycle.moveFront (hc : d.Cycle h (l₁ ++ b :: l₂)) (hd : (h :: (l₁ ++ b :: l₂)).Nodup) :
    ((d.unlink b).pushFront h b).Cycle h (b :: (l₁ ++ l₂)) :=
  (hc.unlink hd).pushFront (hd.perm (perm_middle.cons h))

omit [DecidableEq ν] in
theorem cycle_nil (hnext : d.next h = h) (hprev : d.prev h = h) : d.Cycle h [] := by
  rw [Cycle, nil_append, isChain_cons_cons]
  exact ⟨⟨hnext, hprev⟩, List.IsChain.singleton h⟩

/-- Nodes put behind `h` one after the other come out in the opposite order. -/
theorem Cycle.foldl_pushFront (hc : d.Cycle h l) (bs : List ν) (hd : (h :: (bs ++ l)).Nodup) :
    (bs.foldl (fun d b => d.pushFront h b) d).Cycle h (bs.reverse ++ l) := by
  induction bs generalizing d l with
  | nil => exact hc
  | cons b bs ih =>
    have hperm : (h :: (b :: bs ++ l)).Perm (h :: (bs ++ b :: l)) :=
      perm_middle.symm.cons h
    have hd' := hd.perm hperm
    have hpush :=
      hc.pushFront (hd.sublist ((sublist_append_right bs l).cons_cons b |>.cons_cons h))
    rw [foldl_cons, reverse_cons, append_assoc, singleton_append]
    exact ih hpush hd'

/-! ## Going around -/

omit [DecidableEq ν] in
theorem links_of_isChain {x : ν} (hc : List.IsChain d.Joined (x :: l)) : Links d.next x l := by
  induction l generalizing x with
  | nil => trivial
  | cons y l ih =>
    rw [isChain_cons_cons] at hc
    exact ⟨hc.1.1, ih hc.2⟩

omit [DecidableEq ν] in
theorem Cycle.ring (hc : d.Cycle h l) : Ring d.next h l := by
  have hlinks := links_append.1 (links_of_isChain hc)
  exact ⟨hlinks.1, hlinks.2.1⟩

/-- The two directions exchanged. -/
def flip (d : Dll ν) : Dll ν := ⟨d.prev, d.next⟩

omit [DecidableEq ν] in
theorem Cycle.flip (hc : d.Cycle h l) : d.flip.Cycle h l.reverse := by
  have hrev : (h :: (l ++ [h])).reverse = h :: (l.reverse ++ [h]) := by simp
  rw [Cycle, ← hrev, isChain_reverse]
  exact hc.imp fun x y hxy => ⟨hxy.2, hxy.1⟩

omit [DecidableEq ν] in
theorem Cycle.prev_next (hc : d.Cycle h l) {x : ν} (hx : x ∈ h :: l) : d.prev (d.next x) = x := by
  obtain ⟨a, c, hac⟩ := append_of_mem hx
  obtain ⟨y, c', hy⟩ : ∃ y c', c ++ [h] = y :: c' := exists_cons_of_ne_nil (by simp)
  have hall : h :: (l ++ [h]) = a ++ x :: y :: c' := by
    rw [← cons_append, hac, append_assoc, cons_append, hy]
  rw [Cycle, hall, isChain_append_cons_cons] at hc
  obtain ⟨-, ⟨hnext, hprev⟩, -⟩ := hc
  rw [hnext, hprev]

omit [DecidableEq ν] in
theorem Cycle.next_prev (hc : d.Cycle h l) {x : ν} (hx : x ∈ h :: l) : d.next (d.prev x) = x :=
  hc.flip.prev_next (by simpa using hx)

/-- A search that follows the pointers from `x`, for so many nodes at most, until it is at `h`. -/
def seek (step : ν → ν) (h : ν) (p : ν → Bool) : ℕ → ν → Option (Option ν)
  | 0, _ => none
  | n + 1, x => if x = h then some none else if p x then some (some x) else seek step h p n (step x)

theorem seek_tail {step : ν → ν} {p : ν → Bool} {x : ν} {n : ℕ} (ht : Tail step x l h) (hh : h ∉ l)
    (hn : l.length < n) : seek step h p n (step x) = some (l.find? p) := by
  induction l generalizing x n with
  | nil =>
    obtain ⟨n, rfl⟩ := Nat.exists_eq_succ_of_ne_zero (Nat.ne_zero_of_lt hn)
    have hx : step x = h := ht.2
    rw [seek, if_pos hx, find?_nil]
  | cons y l ih =>
    obtain ⟨n, rfl⟩ := Nat.exists_eq_succ_of_ne_zero (Nat.ne_zero_of_lt hn)
    obtain ⟨hxy, ht⟩ := tail_cons.1 ht
    rw [mem_cons, not_or] at hh
    rw [hxy, seek, if_neg (Ne.symm hh.1), find?_cons]
    cases hp : p y with
    | true => simp
    | false =>
      rw [length_cons] at hn
      simpa using ih ht hh.2 (by omega)

theorem Cycle.seek_next {p : ν → Bool} {n : ℕ} (hc : d.Cycle h l) (hh : h ∉ l)
    (hn : l.length < n) : seek d.next h p n (d.next h) = some (l.find? p) :=
  seek_tail hc.ring hh hn

theorem Cycle.seek_prev {p : ν → Bool} {n : ℕ} (hc : d.Cycle h l) (hh : h ∉ l)
    (hn : l.length < n) : seek d.prev h p n (d.prev h) = some (l.reverse.find? p) :=
  seek_tail hc.flip.ring (by simpa using hh) (by simpa using hn)

end Dll

end Xv6.Lib
