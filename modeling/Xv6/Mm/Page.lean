import Xv6.Param
import Xv6.Lib.Bytes
import Xv6.Lib.Prog

/-!
# Page frames, page-table entries and virtual addresses

Physical memory is kept frame by frame; frame `f` is the page at physical address
`f * PGSIZE`.  The kernel reaches it through the direct map at `KERNBASE`, so a kernel
pointer to a page is modelled by the number of its frame.

* `Page.entry`, `Page.setEntry` — the 512 words of a frame.
* `present`, `isUser`, `frameOf` — the parts of a page-table entry the code looks at.
* `index` — the four table indices of an address, `PMX`, `PDPX`, `PDX` and `PTX`.
* `PGROUNDUP`, `add64` and the like — arithmetic as the development profile compiles it,
  with a panic where it overflows.
-/

namespace Xv6.Mm

open Lib

/-! ## Frames -/

/-- The bytes of a frame by offset; offsets from `PGSIZE` on are not used. -/
abbrev Page : Type := ℕ → UInt8

namespace Page

/-- A frame filled with one byte: `ptr::write_bytes`. -/
def fill (c : UInt8) : Page := fun _ => c

/-- Entry `i` of the frame as a table. -/
def entry (p : Page) (i : ℕ) : ℕ := readLE p (8 * i) 8

/-- Set entry `i`. -/
def setEntry (p : Page) (i v : ℕ) : Page := splice p (8 * i) 8 (byteOf v)

variable {p : Page} {i j v : ℕ}

theorem entry_setEntry_self (hv : v < 2 ^ 64) : (p.setEntry i v).entry i = v := by
  rw [entry, setEntry, readLE_splice_byteOf, Nat.mod_eq_of_lt (by omega)]

theorem entry_setEntry_of_ne (h : j ≠ i) : (p.setEntry i v).entry j = p.entry j :=
  readLE_splice_of_disjoint (by omega)

@[simp] theorem entry_fill_zero (i : ℕ) : (fill 0).entry i = 0 := by
  simp [entry, fill, readLE]

attribute [irreducible] entry setEntry

end Page

/-! ## Page-table entries -/

/-- `e & PTE_P != 0`. -/
def present (e : ℕ) : Bool := e.testBit 0

/-- `e & PTE_U != 0`. -/
def isUser (e : ℕ) : Bool := e.testBit 2

/-- `e & !PTE_U`. -/
def clearUser (e : ℕ) : ℕ := if isUser e then e - PTE_U else e

/-- The frame an entry refers to: `PTE_ADDR(e)`. -/
def frameOf (e : ℕ) : ℕ := e / PGSIZE

/-- `PTE_FLAGS(e)`. -/
def flagsOf (e : ℕ) : ℕ := e % PGSIZE

/-- The entry for a frame: `pa | flags`. -/
def mkEntry (f flags : ℕ) : ℕ := f * PGSIZE ||| flags

section Entry

variable {f fl : ℕ}

theorem mkEntry_eq (h : fl < PGSIZE) : mkEntry f fl = 2 ^ 12 * f + fl := by
  rw [mkEntry, Nat.mul_comm, show PGSIZE = 2 ^ 12 from rfl, Nat.two_pow_add_eq_or_of_lt h]

@[simp] theorem frameOf_mkEntry (h : fl < PGSIZE) : frameOf (mkEntry f fl) = f := by
  have h' : fl < 4096 := h
  rw [mkEntry_eq h]
  change (2 ^ 12 * f + fl) / 4096 = f
  omega

@[simp] theorem flagsOf_mkEntry (h : fl < PGSIZE) : flagsOf (mkEntry f fl) = fl := by
  have h' : fl < 4096 := h
  rw [mkEntry_eq h]
  change (2 ^ 12 * f + fl) % 4096 = fl
  omega

theorem present_mkEntry (h : fl < PGSIZE) : present (mkEntry f fl) = fl.testBit 0 := by
  rw [present, mkEntry_eq h, Nat.testBit_two_pow_mul_add f (i := 12) h, if_pos (by decide)]

/-- An entry is its frame and its flags. -/
theorem mkEntry_frameOf (e : ℕ) : mkEntry (frameOf e) (flagsOf e) = e := by
  rw [flagsOf, mkEntry_eq (Nat.mod_lt e (by decide))]
  change 2 ^ 12 * (e / 4096) + e % 4096 = e
  omega

theorem mkEntry_lt (hf : f < 2 ^ 52) (h : fl < PGSIZE) : mkEntry f fl < 2 ^ 64 := by
  have h' : fl < 4096 := h
  rw [mkEntry_eq h]
  omega

@[simp] theorem present_zero : present 0 = false := rfl

end Entry

/-! ## Virtual addresses -/

/-- The number of the page an address lies in. -/
def pageOf (va : ℕ) : ℕ := va / PGSIZE

/-- The indices of a page number: one per level, from the root down. -/
def index (v : ℕ) : List ℕ := [v / 512 ^ 3 % 512, v / 512 ^ 2 % 512, v / 512 % 512, v % 512]

/-- `PMX`, `PDPX`, `PDX` and `PTX` of an address: nine bits each from bit 39, 30, 21, 12. -/
def PMX (va : ℕ) : ℕ := va / 2 ^ 39 % 512
def PDPX (va : ℕ) : ℕ := va / 2 ^ 30 % 512
def PDX (va : ℕ) : ℕ := va / 2 ^ 21 % 512
def PTX (va : ℕ) : ℕ := va / 2 ^ 12 % 512

theorem index_pageOf (va : ℕ) : index (pageOf va) = [PMX va, PDPX va, PDX va, PTX va] := by
  simp only [index, pageOf, PMX, PDPX, PDX, PTX, Nat.div_div_eq_div_mul]
  rfl

/-- Pages below `2 ^ 36` are told apart by their indices. -/
theorem index_inj {v w : ℕ} (hv : v < 512 ^ 4) (hw : w < 512 ^ 4) (h : index v = index w) :
    v = w := by
  simp only [index, List.cons.injEq, and_true] at h
  omega

/-! ## Arithmetic -/

variable {σ : Type}

/-- `a + b` on `u64`. -/
def add64 (a b : ℕ) : Prog σ ℕ :=
  if a + b < 2 ^ 64 then pure (a + b) else .panic "attempt to add with overflow"

/-- `a - b` on unsigned integers. -/
def subU (a b : ℕ) : Prog σ ℕ :=
  if b ≤ a then pure (a - b) else .panic "attempt to subtract with overflow"

/-- `PGROUNDUP`: `(sz + (PGSIZE - 1)) & !(PGSIZE - 1)`. -/
def PGROUNDUP (sz : ℕ) : Prog σ ℕ := do
  let x ← add64 sz (PGSIZE - 1)
  pure (x / PGSIZE * PGSIZE)

/-- `PGROUNDDOWN`: `a & !(PGSIZE - 1)`. -/
def PGROUNDDOWN (a : ℕ) : ℕ := a / PGSIZE * PGSIZE

/-- The number of the first page at or above an address. -/
def pageUp (sz : ℕ) : ℕ := (sz + (PGSIZE - 1)) / PGSIZE

variable {a b : ℕ}

theorem add64_of_lt (h : a + b < 2 ^ 64) : (add64 a b : Prog σ ℕ) = .ret (a + b) := by
  rw [add64, if_pos h]
  rfl

theorem subU_of_le (h : b ≤ a) : (subU a b : Prog σ ℕ) = .ret (a - b) := by
  rw [subU, if_pos h]
  rfl

theorem PGROUNDUP_of_lt (h : a < KERNBASE) :
    (PGROUNDUP a : Prog σ ℕ) = .ret (pageUp a * PGSIZE) := by
  have hlt : a + (PGSIZE - 1) < 2 ^ 64 := by
    change a < 0xFFFF800000000000 at h
    change a + 4095 < 2 ^ 64
    omega
  rw [PGROUNDUP, add64_of_lt hlt]
  rfl

-- unfolding these compares numbers such as `a + 4096` in unary
attribute [irreducible] add64 subU PGROUNDUP

end Xv6.Mm
