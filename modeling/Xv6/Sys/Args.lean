import Xv6.Lib.Fallible
import Xv6.Mm.Tree

/-!
# System call arguments

The checks on user addresses: `fetcharg`, `argptr` and `fetchstr` of
`crates/syscall/src/lib.rs` and `fetchaddr` of `sysfile.rs`.  Each compares an address with
the size of the process; only `fetchstr` also knows that page `0` is never mapped.

* `Mapped` — the page of an address is present in a page table.
* `accepted_mapped_iff` — an accepted buffer is mapped exactly where it starts at or above
  `PGSIZE`, which `fetchstr` checks and the other two do not.
-/

namespace Xv6.Sys

open Lib Mm

/-- The registers of a trap frame that carry arguments. -/
structure ArgRegs where
  rdi : ℕ
  rsi : ℕ
  rdx : ℕ
  r10 : ℕ
  r8 : ℕ
  r9 : ℕ

/-- What the checks read of the current process: its trap frame, its size, and memory with
the root of its page table. -/
structure Caller where
  /-- `p.tf`. -/
  tf : ArgRegs
  /-- `p.sz`. -/
  sz : ℕ
  /-- The contents of the frames. -/
  ram : ℕ → Page
  /-- `p.pgdir`. -/
  pgdir : ℕ

/-- `fetcharg`. -/
def fetcharg (p : Caller) (n : ℤ) : Except String ℕ :=
  match n with
  | 0 => pure p.tf.rdi
  | 1 => pure p.tf.rsi
  | 2 => pure p.tf.rdx
  | 3 => pure p.tf.r10
  | 4 => pure p.tf.r8
  | 5 => pure p.tf.r9
  | _ => throw "fetcharg: invalid index"

/-- `i >= p.sz || i + size > p.sz`, with the sum taken on `u64`. -/
def outside (p : Caller) (i size : ℕ) : Except String Bool :=
  if p.sz ≤ i then pure true
  else if i + size < 2 ^ 64 then pure (decide (p.sz < i + size))
  else throw "attempt to add with overflow"

/-- `argptr`: the address it stores in `pp`, or `none` for `-1`. -/
def argptr (p : Caller) (n size : ℤ) : Except String (Option ℕ) := do
  let i ← fetcharg p n
  if size < 0 then pure none
  else
    let out ← outside p i size.toNat
    pure (if out then none else some i)

/-- The byte at a user address, through the page table. -/
def byteAt (p : Caller) (va : ℕ) : UInt8 :=
  p.ram (frameOf (pte p.ram p.pgdir (pageOf va))) (va % PGSIZE)

/-- `fetchaddr`: the word it stores in `ip`, or `none` for `-1`. -/
def fetchaddr (p : Caller) (addr : ℕ) : Except String (Option ℕ) := do
  let out ← outside p addr 8
  pure (if out then none else some (Lib.readLE (byteAt p) addr 8))

/-- `fetchstr`: the length of the string as it is returned, or `-1`. -/
def fetchstr (p : Caller) (addr : ℕ) : ℤ :=
  if addr < PGSIZE ∨ p.sz ≤ addr then -1
  else
    match (List.range (p.sz - addr)).find? fun i => byteAt p (addr + i) = 0 with
    | some i => asI32 i
    | none => -1

/-- A user address lies in a page that is present. -/
def Mapped (p : Caller) (va : ℕ) : Prop :=
  pageOf va < UPAGES ∧ present (pte p.ram p.pgdir (pageOf va)) = true

/-- The page table maps exactly the pages of `[PGSIZE, PGROUNDUP(sz))`. -/
def MapsExactly (p : Caller) : Prop :=
  ∀ va, Mapped p va ↔ PGSIZE ≤ va ∧ va < pageUp p.sz * PGSIZE

variable {p : Caller} {n size : ℤ} {i len a v : ℕ}

/-- What passes the comparison with the size ends below it. -/
theorem le_of_outside_eq_false (h : outside p i len = .ok false) : i < p.sz ∧ i + len ≤ p.sz := by
  rw [outside] at h
  split_ifs at h with hi hlt
  · cases h
  · have hle : decide (p.sz < i + len) = false := Except.ok.inj h
    exact ⟨Nat.lt_of_not_le hi, Nat.le_of_not_lt (of_decide_eq_false hle)⟩

theorem argptr_eq_some (h : argptr p n size = .ok (some a)) : a + size.toNat ≤ p.sz := by
  rw [argptr] at h
  obtain ⟨i, -, h⟩ := Lib.bind_eq_ok.1 h
  split_ifs at h with hneg
  · cases h
  · obtain ⟨out, hout, h⟩ := Lib.bind_eq_ok.1 h
    cases out with
    | true => cases h
    | false =>
      cases h
      exact (le_of_outside_eq_false hout).2

theorem fetchaddr_eq_some (h : fetchaddr p a = .ok (some v)) : a + 8 ≤ p.sz := by
  rw [fetchaddr] at h
  obtain ⟨out, hout, h⟩ := Lib.bind_eq_ok.1 h
  cases out with
  | true => cases h
  | false => exact (le_of_outside_eq_false hout).2

/-- A string that is accepted starts above page `0` and ends with its `NUL` below the size. -/
theorem fetchstr_nonneg (h : 0 ≤ fetchstr p a) : PGSIZE ≤ a ∧ ∃ i, fetchstr p a = asI32 i ∧
    a + i < p.sz ∧ byteAt p (a + i) = 0 ∧ ∀ j < i, byteAt p (a + j) ≠ 0 := by
  rw [fetchstr] at h ⊢
  split_ifs at h ⊢ with hrange
  · cases h
  · cases hfind : (List.range (p.sz - a)).find? fun i => byteAt p (a + i) = 0 with
    | none =>
      rw [hfind] at h
      cases h
    | some i =>
      obtain ⟨hzero, hmem, hfirst⟩ := List.find?_range_eq_some.1 hfind
      rw [List.mem_range] at hmem
      refine ⟨by omega, i, rfl, by omega, of_decide_eq_true hzero, fun j hj => ?_⟩
      simpa using hfirst j hj

theorem le_pageUp_mul (sz : ℕ) : sz ≤ pageUp sz * PGSIZE := by
  change sz ≤ (sz + 4095) / 4096 * 4096
  omega

/-- A range below the size is mapped exactly where it starts at or above `PGSIZE`. -/
theorem MapsExactly.range_iff (h : MapsExactly p) (hlen : 0 < len) (hle : a + len ≤ p.sz) :
    (∀ b < len, Mapped p (a + b)) ↔ PGSIZE ≤ a := by
  constructor
  · intro hall
    exact ((h (a + 0)).1 (hall 0 hlen)).1
  · intro ha b hb
    have hup := le_pageUp_mul p.sz
    exact (h (a + b)).2 ⟨by omega, by omega⟩

/-- **Accepted user buffers.**  Where the page table maps exactly `[PGSIZE, PGROUNDUP(sz))`,
a buffer that `argptr` or `fetchaddr` accepts is mapped, every byte of it, if and only if it
starts at or above `PGSIZE`; a string that `fetchstr` accepts is mapped up to and including
its `NUL`. -/
theorem accepted_mapped_iff (h : MapsExactly p) :
    (∀ n size a, 0 < size → argptr p n size = .ok (some a) →
      ((∀ b < size.toNat, Mapped p (a + b)) ↔ PGSIZE ≤ a)) ∧
    (∀ a v, fetchaddr p a = .ok (some v) → ((∀ b < 8, Mapped p (a + b)) ↔ PGSIZE ≤ a)) ∧
    ∀ a, 0 ≤ fetchstr p a → ∃ i, fetchstr p a = asI32 i ∧ byteAt p (a + i) = 0 ∧
      (∀ j < i, byteAt p (a + j) ≠ 0) ∧ ∀ b ≤ i, Mapped p (a + b) := by
  refine ⟨fun n size a hsize ha => ?_, fun a v ha => ?_, fun a ha => ?_⟩
  · exact h.range_iff (by omega) (argptr_eq_some ha)
  · exact h.range_iff (by decide) (fetchaddr_eq_some ha)
  · obtain ⟨hpage, i, hret, hlt, hzero, hfirst⟩ := fetchstr_nonneg ha
    have hall := (h.range_iff (Nat.succ_pos i) (by omega : a + (i + 1) ≤ p.sz)).2 hpage
    exact ⟨i, hret, hzero, hfirst, fun b hb => hall b (Nat.lt_succ_of_le hb)⟩

/-! ## The first process -/

/-- A chain of tables in frames `1` to `4` that maps page `1` to frame `5`. -/
def onePage (t : ℕ) : Page :=
  if t < 4 then (Page.fill 0).setEntry 0 (mkEntry (t + 1) 7)
  else if t = 4 then (Page.fill 0).setEntry 1 (mkEntry 5 7)
  else Page.fill 0

/-- A process as `userinit` makes it, two pages in size with the first of them not mapped,
that passes an address. -/
def twoPages (a : ℕ) : Caller := ⟨⟨a, 0, 0, 0, 0, 0⟩, 2 * PGSIZE, onePage, 1⟩

theorem child_onePage {t : ℕ} (ht : t < 4) (i : ℕ) :
    child onePage t i = if i = 0 then some (t + 1) else none := by
  have hlt : mkEntry (t + 1) 7 < 2 ^ 64 := mkEntry_lt (by omega) (by decide)
  rw [child, onePage, if_pos ht]
  split_ifs with hp hi hi
  · rw [hi, Page.entry_setEntry_self hlt, frameOf_mkEntry (by decide)]
  · rw [Page.entry_setEntry_of_ne hi, Page.entry_fill_zero] at hp
    cases hp
  · rw [hi, Page.entry_setEntry_self hlt, present_mkEntry (by decide)] at hp
    exact absurd rfl hp
  · rfl

theorem node_onePage (v : ℕ) (hv : v < UPAGES) :
    node onePage 1 (tablePath v) = if v < 512 then some 4 else none := by
  change v < 2 ^ 35 at hv
  rw [node, tablePath, Lib.follow_cons, child_onePage (by decide)]
  split_ifs with h₁ h h
  · rw [Option.bind_some, Lib.follow_cons, child_onePage (by decide), if_pos (by omega),
      Option.bind_some, Lib.follow_cons, child_onePage (by decide), if_pos (by omega)]
    rfl
  · rw [Option.bind_some, Lib.follow_cons, child_onePage (by decide)]
    split_ifs with h₂
    · rw [Option.bind_some, Lib.follow_cons, child_onePage (by decide), if_neg (by omega)]
      rfl
    · rfl
  · omega
  · rfl

theorem present_onePage (v : ℕ) (hv : v < UPAGES) : present (pte onePage 1 v) = true ↔ v = 1 := by
  have hlt : mkEntry 5 7 < 2 ^ 64 := mkEntry_lt (by decide) (by decide)
  have hfour : onePage 4 = (Page.fill 0).setEntry 1 (mkEntry 5 7) := rfl
  rw [pte, node_onePage v hv]
  split_ifs with h
  · simp only [Nat.mod_eq_of_lt h, hfour]
    by_cases hone : v = 1
    · rw [hone, Page.entry_setEntry_self hlt, present_mkEntry (by decide)]
      exact ⟨fun _ => rfl, fun _ => rfl⟩
    · rw [Page.entry_setEntry_of_ne hone, Page.entry_fill_zero, present_zero]
      exact iff_of_false Bool.false_ne_true hone
  · exact iff_of_false (fun hp => Bool.false_ne_true (present_zero.symm.trans hp)) (by omega)

theorem mapsExactly_twoPages (a : ℕ) : MapsExactly (twoPages a) := by
  intro va
  have hup : pageUp (twoPages a).sz * PGSIZE = 8192 := by
    change (2 * 4096 + (4096 - 1)) / 4096 * 4096 = 8192
    norm_num
  rw [hup, Mapped]
  change va / 4096 < 2 ^ 35 ∧ present (pte onePage 1 (va / 4096)) = true ↔ 4096 ≤ va ∧ va < 8192
  constructor
  · rintro ⟨hlt, hp⟩
    have := (present_onePage _ hlt).1 hp
    omega
  · intro h
    exact ⟨by omega, (present_onePage _ (by change va / 4096 < 2 ^ 35; omega)).2 (by omega)⟩

/-- The process passes a pointer into its second page. -/
theorem accepted_mapped_iff_twoPages : argptr (twoPages PGSIZE) 0 16 = .ok (some PGSIZE) ∧
    ∀ b < 16, Mapped (twoPages PGSIZE) (PGSIZE + b) :=
  ⟨rfl, ((accepted_mapped_iff (mapsExactly_twoPages PGSIZE)).1 0 16 PGSIZE (by decide) rfl).2
    le_rfl⟩

/-- `argptr` and `fetchaddr` accept the address `0`, which is not mapped. -/
theorem null_accepted : MapsExactly (twoPages 0) ∧ argptr (twoPages 0) 0 1 = .ok (some 0) ∧
    (∃ v, fetchaddr (twoPages 0) 0 = .ok (some v)) ∧ ¬ Mapped (twoPages 0) 0 := by
  refine ⟨mapsExactly_twoPages 0, rfl, ⟨_, rfl⟩, fun h => ?_⟩
  have hle : 4096 ≤ 0 := ((mapsExactly_twoPages 0 0).1 h).1
  cases hle

end Xv6.Sys
