import Xv6.Lib.Fallible
import Xv6.Lib.Machine
import Xv6.Param

/-!
# References to the inode cache

`iget`, `idup` and `iput` of `crates/fs/src/fs.rs` as sections under `icache.lock`, run by any
processes in any order.  The last `iput` of an inode without links gives the lock up to truncate
the file, so it takes two sections, and in between anybody may find the slot and take another
reference.

* `igetLoop_spec` — one pass finds the live slot, or else the first empty one.
* `Exact` — the counts are what the processes hold, and no two live slots are for one inode.
* `icache_exact` — so it stays, and a live slot keeps its device and number.
-/

namespace Xv6.Fs.Icache

open Lib Function

/-- A slot of `icache.inode`. -/
structure Entry where
  dev : UInt32
  inum : UInt32
  ref : ℤ
  valid : Bool
  nlink : ℤ
  deriving DecidableEq

/-- What a slot is for. -/
def Entry.key (x : Entry) : UInt32 × UInt32 := (x.dev, x.inum)

abbrev Index : Type := Fin NINODE

/-- `icache.inode`. -/
abbrev Entries : Type := Index → Entry

/-! ## The sections -/

/-- Write a count, an `i32` with overflow checks. -/
def setRef (ic : Entries) (i : Index) (n : ℤ) : Except String Entries :=
  if -2 ^ 31 ≤ n ∧ n < 2 ^ 31 then .ok (update ic i { ic i with ref := n })
  else .error "attempt to compute with overflow"

/-- The loop of `iget`: the slot it returns from, or `empty` after the last slot. -/
def igetLoop (ic : Entries) (dev inum : UInt32) : List Index → Option Index → Index ⊕ Option Index
  | [], empty => .inr empty
  | i :: is, empty =>
    if 0 < (ic i).ref ∧ (ic i).dev = dev ∧ (ic i).inum = inum then .inl i
    else igetLoop ic dev inum is (if empty = none ∧ (ic i).ref = 0 then some i else empty)

/-- `iget`. -/
def iget (ic : Entries) (dev inum : UInt32) : Except String (Entries × Index) :=
  match igetLoop ic dev inum (List.finRange NINODE) none with
  | .inl i => do
    let ic ← setRef ic i ((ic i).ref + 1)
    pure (ic, i)
  | .inr none => .error "iget: no inodes"
  | .inr (some i) =>
    pure (update ic i { ic i with dev := dev, inum := inum, ref := 1, valid := false }, i)

/-- `idup`. -/
def idup (ic : Entries) (i : Index) : Except String Entries := setRef ic i ((ic i).ref + 1)

/-- The test of `iput` for the last reference to an inode without links. -/
def iputLast (ic : Entries) (i : Index) : Bool := (ic i).ref = 1 && (ic i).valid && (ic i).nlink = 0

/-- `iput` from its decrement on. -/
def iputDrop (ic : Entries) (i : Index) : Except String Entries := setRef ic i ((ic i).ref - 1)

/-- `iput` once the file is truncated: `flags = 0`, and the decrement. -/
def iputFreed (ic : Entries) (i : Index) : Except String Entries :=
  iputDrop (update ic i { ic i with valid := false }) i

/-! ## Processes -/

/-- The cache, the references each process has, and who is truncating a file in `iput`. -/
structure System (P : Type) where
  inode : Entries
  held : P → Index → ℕ
  freeing : P → Option Index

/-- What happens. -/
inductive Act (P : Type) where
  | iget (p : P) (dev inum : UInt32)
  | idup (p : P) (i : Index)
  /-- `iput` up to the point where it gives the lock up or returns. -/
  | iput (p : P) (i : Index)
  /-- The rest of an `iput` that gave the lock up. -/
  | iputRest (p : P)
  /-- A reference changes hands, as the child's `cwd` in `fork`. -/
  | give (p q : P) (i : Index)
  /-- The code between `ilock` and `iunlock` loads a slot or changes its links. -/
  | fields (i : Index) (valid : Bool) (nlink : ℤ)

section Step

variable {P : Type} [DecidableEq P]

/-- Process `p` has `n` references to slot `i`. -/
def hand (held : P → Index → ℕ) (p : P) (i : Index) (n : ℕ) : P → Index → ℕ :=
  update held p (update (held p) i n)

/-- Run one section, unless it panics. -/
def step (s : System P) : Act P → Option (System P)
  | .iget p dev inum => (iget s.inode dev inum).toOption.map fun r =>
      { s with inode := r.1, held := hand s.held p r.2 (s.held p r.2 + 1) }
  | .idup p i => (idup s.inode i).toOption.map fun ic =>
      { s with inode := ic, held := hand s.held p i (s.held p i + 1) }
  | .iput p i =>
    if iputLast s.inode i then some { s with freeing := update s.freeing p (some i) }
    else (iputDrop s.inode i).toOption.map fun ic =>
      { s with inode := ic, held := hand s.held p i (s.held p i - 1) }
  | .iputRest p => (s.freeing p).bind fun i => (iputFreed s.inode i).toOption.map fun ic =>
      ⟨ic, hand s.held p i (s.held p i - 1), update s.freeing p none⟩
  | .give p q i =>
    let held := hand s.held p i (s.held p i - 1)
    some { s with held := hand held q i (held q i + 1) }
  | .fields i valid nlink =>
    some { s with
      inode := update s.inode i { s.inode i with valid := valid, nlink := nlink } }

/-- A process makes one call at a time, drops and gives away only references it has, and
duplicates only one that somebody has. -/
def Allowed (s : System P) : Act P → Prop
  | .iget p _ _ => s.freeing p = none
  | .idup p i => s.freeing p = none ∧ ∃ q, 0 < s.held q i
  | .iput p i => s.freeing p = none ∧ 0 < s.held p i
  | .iputRest p => s.freeing p ≠ none
  | .give p _ i => s.freeing p = none ∧ 0 < s.held p i
  | .fields _ _ _ => True

instance [Fintype P] (s : System P) : DecidablePred (Allowed s)
  | .iget p _ _ => inferInstanceAs (Decidable (s.freeing p = none))
  | .idup p i => inferInstanceAs (Decidable (s.freeing p = none ∧ ∃ q, 0 < s.held q i))
  | .iput p i => inferInstanceAs (Decidable (s.freeing p = none ∧ 0 < s.held p i))
  | .iputRest p => inferInstanceAs (Decidable (s.freeing p ≠ none))
  | .give p _ i => inferInstanceAs (Decidable (s.freeing p = none ∧ 0 < s.held p i))
  | .fields _ _ _ => inferInstanceAs (Decidable True)

end Step

/-- The cache is zeroed memory, and nobody has a reference. -/
def boot (P : Type) : System P := ⟨fun _ => ⟨0, 0, 0, false, 0⟩, fun _ _ => 0, fun _ => none⟩

/-! ## What the sections do -/

variable {ic ic' : Entries} {i j : Index} {dev inum : UInt32}

theorem setRef_eq_ok {n : ℤ} (h : setRef ic i n = .ok ic') :
    ic' = update ic i { ic i with ref := n } := by
  unfold setRef at h
  split at h
  · exact (Except.ok.inj h).symm
  · simp at h

/-- The loop returns from a live slot for the inode; if there is none it ends with an empty slot,
if there is one. -/
theorem igetLoop_spec (ic : Entries) (dev inum : UInt32) (is : List Index) (empty : Option Index)
    (hempty : ∀ j, empty = some j → (ic j).ref = 0) :
    match igetLoop ic dev inum is empty with
    | .inl i => 0 < (ic i).ref ∧ (ic i).key = (dev, inum)
    | .inr e => (∀ i ∈ is, 0 < (ic i).ref → (ic i).key ≠ (dev, inum)) ∧ ∀ j, e = some j →
      (ic j).ref = 0 := by
  induction is generalizing empty with
  | nil => simpa [igetLoop] using hempty
  | cons i is ih =>
    unfold igetLoop
    by_cases hit : 0 < (ic i).ref ∧ (ic i).dev = dev ∧ (ic i).inum = inum
    · rw [if_pos hit]
      exact ⟨hit.1, Prod.ext hit.2.1 hit.2.2⟩
    · rw [if_neg hit]
      have hnext : ∀ j, (if empty = none ∧ (ic i).ref = 0 then some i else empty) = some j →
        (ic j).ref = 0 := by
        intro j hj
        split_ifs at hj with h
        · rw [← Option.some.inj hj]
          exact h.2
        · exact hempty j hj
      have hrest := ih _ hnext
      split at hrest
      · exact hrest
      · refine ⟨?_, hrest.2⟩
        simp only [List.mem_cons, forall_eq_or_imp]
        refine ⟨fun hpos hkey => hit ⟨hpos, ?_⟩, hrest.1⟩
        simpa [Entry.key] using hkey

/-- `iget` counts a reference to the live slot, or makes an empty one live if there is none. -/
theorem iget_eq_ok (h : iget ic dev inum = .ok (ic', i)) :
    (0 < (ic i).ref ∧ ic' = update ic i { ic i with ref := (ic i).ref + 1 }) ∨
      (ic i).ref = 0 ∧ (∀ j, 0 < (ic j).ref → (ic j).key ≠ (dev, inum)) ∧
        ic' = update ic i
          { ic i with dev := dev, inum := inum, ref := 1, valid := false } := by
  have hspec := igetLoop_spec ic dev inum (List.finRange NINODE) none (by simp)
  unfold iget at h
  split at h
  · rename_i k hloop
    rw [hloop] at hspec
    cases hset : setRef ic k ((ic k).ref + 1) with
    | error msg => simp [hset, bind, Except.bind] at h
    | ok ic₁ =>
      simp only [hset, bind, Except.bind, pure, Except.pure, Except.ok.injEq, Prod.mk.injEq] at h
      obtain ⟨rfl, rfl⟩ := h
      exact .inl ⟨hspec.1, setRef_eq_ok hset⟩
  · simp at h
  · rename_i k hloop
    rw [hloop] at hspec
    simp only [pure, Except.pure, Except.ok.injEq, Prod.mk.injEq] at h
    obtain ⟨rfl, rfl⟩ := h
    exact .inr ⟨hspec.2 k rfl, fun j => hspec.1 j (List.mem_finRange j), rfl⟩

/-! ## The invariant -/

variable {P : Type} [Fintype P] [DecidableEq P] {s s' : System P} {p q : P}

/-- The references to a slot that are handed out and not yet dropped. -/
def out (held : P → Index → ℕ) (i : Index) : ℕ := ∑ p, held p i

omit [DecidableEq P] in
theorem le_out (held : P → Index → ℕ) (p : P) (i : Index) : held p i ≤ out held i :=
  Finset.single_le_sum (f := fun p => held p i) (fun _ _ => Nat.zero_le _) (Finset.mem_univ p)

/-- What one process has of one slot changes. -/
theorem out_hand (held : P → Index → ℕ) (p : P) (i j : Index) (n : ℕ) :
    out (hand held p i n) j + (if j = i then held p i else 0) = out held j + if j = i then n
      else 0 := by
  have hsum := sum_update_add (fun g : Index → ℕ => g j) held p (update (held p) i n)
  by_cases hj : j = i
  · subst hj
    simpa [out, hand] using hsum
  · simp only [update_of_ne hj] at hsum
    simpa [out, hand, hj] using hsum

omit [Fintype P] in
theorem hand_self (held : P → Index → ℕ) (p : P) (i : Index) (n : ℕ) : hand held p i n p i = n := by
  simp [hand]

omit [Fintype P] in
theorem hand_of_ne {held : P → Index → ℕ} {n : ℕ} (h : q ≠ p) (j : Index) :
    hand held p i n q j = held q j := by
  simp [hand, update_of_ne h]

omit [Fintype P] in
theorem le_hand {held : P → Index → ℕ} {n : ℕ} (h : held p i ≤ n) (q : P) (j : Index) :
    held q j ≤ hand held p i n q j := by
  by_cases hq : q = p
  · subst hq
    by_cases hj : j = i
    · subst hj
      rwa [hand_self]
    · simp [hand, update_of_ne hj]
  · rw [hand_of_ne hq]

/-- The counts are what is handed out, no two live slots are for one inode, and whoever is
truncating a file still has its reference. -/
structure Exact (s : System P) : Prop where
  refs : ∀ i, (s.inode i).ref = out s.held i
  distinct : ∀ i j, 0 < (s.inode i).ref → 0 < (s.inode j).ref → (s.inode i).key = (s.inode j).key →
    i = j
  mid : ∀ p i, s.freeing p = some i → 0 < s.held p i

omit [DecidableEq P] in
theorem Exact.live (h : Exact s) (hp : 0 < s.held p i) : 0 < (s.inode i).ref := by
  have := le_out s.held p i
  rw [h.refs i]
  omega

/-- A slot is written that stays for its inode, or was and is for one that no live slot is for. -/
theorem distinct_update {x : Entry}
    (h : ∀ i j, 0 < (ic i).ref → 0 < (ic j).ref → (ic i).key = (ic j).key → i = j)
    (hx : 0 < x.ref → (0 < (ic i).ref ∧ x.key = (ic i).key) ∨ ∀ j, 0 < (ic j).ref →
      (ic j).key ≠ x.key)
    (hic : ic' = update ic i x) :
    ∀ j k, 0 < (ic' j).ref → 0 < (ic' k).ref → (ic' j).key = (ic' k).key → j = k := by
  subst hic
  have hother : ∀ k, k ≠ i → 0 < (ic k).ref → 0 < x.ref → (ic k).key ≠ x.key := by
    intro k hk hpos hxpos heq
    rcases hx hxpos with ⟨hi, hkey⟩ | hno
    · exact hk (h k i hpos hi (heq.trans hkey))
    · exact hno k hpos heq
  intro j k hj hk heq
  by_cases hji : j = i <;> by_cases hki : k = i
  · rw [hji, hki]
  · subst hji
    rw [update_self, update_of_ne hki] at *
    exact absurd heq.symm (hother k hki hk hj)
  · subst hki
    rw [update_self, update_of_ne hji] at *
    exact absurd heq (hother j hji hj hk)
  · rw [update_of_ne hji] at hj heq
    rw [update_of_ne hki] at hk heq
    exact h j k hj hk heq

/-- A process changes a slot and its references to it by the same amount. -/
theorem Exact.change (h : Exact s) {x : Entry} {n : ℕ}
    (href : x.ref + s.held p i = (s.inode i).ref + n)
    (hx : 0 < x.ref → (0 < (s.inode i).ref ∧ x.key = (s.inode i).key) ∨
      ∀ j, 0 < (s.inode j).ref → (s.inode j).key ≠ x.key)
    (hinode : s'.inode = update s.inode i x) (hheld : s'.held = hand s.held p i n)
    (hmid : ∀ q j, s'.freeing q = some j → 0 < s'.held q j) : Exact s' where
  refs j := by
    have hsum := out_hand s.held p i j n
    rw [hinode, hheld]
    by_cases hj : j = i
    · subst hj
      have hold := h.refs j
      simp only [if_true] at hsum
      rw [update_self]
      omega
    · simp only [if_neg hj, add_zero] at hsum
      rw [update_of_ne hj, h.refs j, hsum]
  distinct := distinct_update h.distinct hx hinode
  mid := hmid

/-- A process outside of `iput` gives a reference up; the others keep theirs. -/
theorem Exact.mid_hand (h : Exact s) {n : ℕ} {fr : P → Option Index} (hp : fr p = none)
    (hfr : ∀ q, q ≠ p → fr q = s.freeing q) (q : P) (j : Index) (hq : fr q = some j) :
    0 < hand s.held p i n q j := by
  have hne : q ≠ p := by
    rintro rfl
    simp [hp] at hq
  rw [hand_of_ne hne]
  exact h.mid q j ((hfr q hne).symm.trans hq)

/-- A section that changes the count of a live slot by the references of its process. -/
theorem Exact.count (h : Exact s) (hlive : 0 < (s.inode i).ref) {x : Entry} {n : ℕ}
    (href : x.ref + s.held p i = (s.inode i).ref + n) (hkey : x.key = (s.inode i).key)
    (hinode : s'.inode = update s.inode i x) (hheld : s'.held = hand s.held p i n)
    (hmid : ∀ q j, s'.freeing q = some j → 0 < s'.held q j) : Exact s' :=
  h.change href (fun _ => Or.inl ⟨hlive, hkey⟩) hinode hheld hmid

theorem Exact.step (h : Exact s) {a : Act P} (hok : Allowed s a) (hs : step s a = some s') :
    Exact s' := by
  cases a with
  | iget p dev inum =>
    obtain ⟨⟨ic, i⟩, hget, rfl⟩ := toOption_map_eq_some hs
    have hmid : ∀ q j, s.freeing q = some j → 0 < hand s.held p i (s.held p i + 1) q j :=
      fun q j hq =>
      (h.mid q j hq).trans_le (le_hand (Nat.le_succ _) q j)
    rcases iget_eq_ok hget with ⟨hlive, rfl⟩ | ⟨hfree, hno, rfl⟩
    · refine h.count hlive ?_ ?_ rfl rfl hmid
      · push_cast
        ring
      · rfl
    · refine h.change (x := { s.inode i with dev := dev, inum := inum, ref := 1, valid := false })
        ?_
        (fun _ => Or.inr hno) rfl rfl hmid
      rw [hfree]
      push_cast
      ring
  | idup p i =>
    obtain ⟨ic, hdup, rfl⟩ := toOption_map_eq_some hs
    obtain ⟨-, q, hq⟩ := hok
    refine h.count (h.live hq) ?_ ?_ (setRef_eq_ok hdup) rfl fun q j hq =>
      (h.mid q j hq).trans_le (le_hand (Nat.le_succ _) q j)
    · push_cast
      ring
    · rfl
  | iput p i =>
    obtain ⟨hidle, hp⟩ := hok
    simp only [Icache.step] at hs
    split at hs
    · cases hs
      refine ⟨h.refs, h.distinct, fun q j hq => ?_⟩
      by_cases hqp : q = p
      · subst hqp
        simp only [update_self, Option.some.injEq] at hq
        rwa [← hq]
      · exact h.mid q j ((update_of_ne hqp ..).symm.trans hq)
    · obtain ⟨ic, hdrop, rfl⟩ := toOption_map_eq_some hs
      refine h.count (h.live hp) ?_ ?_ (setRef_eq_ok hdrop) rfl
        (h.mid_hand hidle fun _ _ => rfl)
      · dsimp only
        omega
      · rfl
  | iputRest p =>
    obtain ⟨i, hfr, hs⟩ := Option.bind_eq_some_iff.1 hs
    obtain ⟨ic, hdrop, rfl⟩ := toOption_map_eq_some hs
    have hp := h.mid p i hfr
    have hic := setRef_eq_ok hdrop
    rw [update_idem, update_self] at hic
    refine h.count (h.live hp) ?_ ?_ hic rfl
      (h.mid_hand (update_self ..) fun q hq => update_of_ne hq ..)
    · dsimp only
      omega
    · rfl
  | give p q i =>
    obtain ⟨hidle, hp⟩ := hok
    cases hs
    refine ⟨fun j => ?_, h.distinct, fun r j hr => ?_⟩
    · have hfrom := out_hand s.held p i j (s.held p i - 1)
      have hto := out_hand (hand s.held p i (s.held p i - 1)) q i j
        (hand s.held p i (s.held p i - 1) q i + 1)
      refine (h.refs j).trans (congrArg Nat.cast ?_)
      dsimp only
      split_ifs at hfrom hto <;> omega
    · exact (h.mid_hand hidle (fun _ _ => rfl) r j hr).trans_le (le_hand (Nat.le_succ _) r j)
  | fields i valid nlink =>
    cases hs
    refine ⟨fun j => ?_, distinct_update (x := { s.inode i with valid := valid, nlink := nlink })
      h.distinct
      (fun hpos => Or.inl ⟨hpos, rfl⟩) rfl, h.mid⟩
    by_cases hj : j = i
    · subst hj
      simpa using h.refs j
    · simpa [update_of_ne hj] using h.refs j

omit [DecidableEq P] in
theorem exact_boot : Exact (boot P) where
  refs i := by simp [boot, out]
  distinct i j hi := by simp [boot] at hi
  mid p i hp := by simp [boot] at hp

omit [Fintype P] in
/-- A write that changes no key of a live slot. -/
theorem key_update {x : Entry} (hx : 0 < (ic i).ref → x.key = (ic i).key) (hj : 0 < (ic j).ref) :
    (update ic i x j).key = (ic j).key := by
  by_cases hji : j = i
  · subst hji
    rw [update_self]
    exact hx hj
  · rw [update_of_ne hji]

omit [Fintype P] in
/-- No section changes what a live slot is for. -/
theorem step_key {a : Act P} (hs : step s a = some s') (hi : 0 < (s.inode i).ref) :
    (s'.inode i).key = (s.inode i).key := by
  cases a with
  | iget p dev inum =>
    obtain ⟨⟨ic, k⟩, hget, rfl⟩ := toOption_map_eq_some hs
    rcases iget_eq_ok hget with ⟨-, rfl⟩ | ⟨hfree, -, rfl⟩
    · exact key_update (fun _ => rfl) hi
    · exact key_update (fun hpos => absurd hpos (by omega)) hi
  | idup p k =>
    obtain ⟨ic, hdup, rfl⟩ := toOption_map_eq_some hs
    rw [setRef_eq_ok hdup]
    exact key_update (fun _ => rfl) hi
  | iput p k =>
    simp only [Icache.step] at hs
    split at hs
    · cases hs
      rfl
    · obtain ⟨ic, hdrop, rfl⟩ := toOption_map_eq_some hs
      rw [setRef_eq_ok hdrop]
      exact key_update (fun _ => rfl) hi
  | iputRest p =>
    obtain ⟨k, -, hs⟩ := Option.bind_eq_some_iff.1 hs
    obtain ⟨ic, hdrop, rfl⟩ := toOption_map_eq_some hs
    rw [setRef_eq_ok hdrop, update_idem, update_self]
    exact key_update (fun _ => rfl) hi
  | give p q k =>
    cases hs
    rfl
  | fields k valid nlink =>
    cases hs
    exact key_update (fun _ => rfl) hi

/-- **The inode cache never aliases or recycles a live inode.**  In every state that any processes
reach, no two slots with references are for one inode, each count is the number of references
handed out and not dropped, and the next section, whatever it is, leaves device and number of
every slot with references as they are. -/
theorem icache_exact (h : Reach step Allowed (boot P) s) :
    (∀ i j, 0 < (s.inode i).ref → 0 < (s.inode j).ref → (s.inode i).dev = (s.inode j).dev →
      (s.inode i).inum = (s.inode j).inum → i = j) ∧
      (∀ i, (s.inode i).ref = ∑ p, (s.held p i : ℤ)) ∧
      ∀ a s', Allowed s a → step s a = some s' → ∀ i, 0 < (s.inode i).ref →
        (s'.inode i).dev = (s.inode i).dev ∧ (s'.inode i).inum = (s.inode i).inum := by
  have hinv : Exact s := h.invariant exact_boot fun _ _ _ hs hok => hs.step hok
  refine ⟨fun i j hi hj hdev hinum => ?_, fun i => ?_, fun a s' _ hs i hi => ?_⟩
  · exact hinv.distinct i j hi hj (Prod.ext hdev hinum)
  · rw [hinv.refs i, out, Nat.cast_sum]
  · have hkey := step_key hs hi
    exact ⟨congrArg Prod.fst hkey, congrArg Prod.snd hkey⟩

/-- A process is truncating the file when another one finds the slot. -/
def overlap (p q : Fin 2) (i : Index) : List (Act (Fin 2)) :=
  [.iget p 1 7, .fields i true 0, .iput p i, .iget q 1 7, .iputRest p]

theorem icache_exact_overlap : ∃ s : System (Fin 2), Reach step Allowed (boot (Fin 2)) s ∧
    (s.inode 0).ref = 1 ∧ (s.inode 0).ref = ∑ p, (s.held p 0 : ℤ) := by
  have hrun : ((exec step (fun s a => decide (Allowed s a)) (boot (Fin 2)) (overlap 0 1 0)).map
      fun s => (s.inode 0).ref) = some 1 := by decide +kernel
  obtain ⟨s, hexec, href⟩ := Option.map_eq_some_iff.1 hrun
  have hreach : Reach step Allowed (boot (Fin 2)) s :=
    reach_of_exec (fun s a => of_decide_eq_true) .init hexec
  exact ⟨s, hreach, href, (icache_exact hreach).2.1 0⟩

end Xv6.Fs.Icache
