import Xv6.Mm.Page

/-!
# The page allocator

`kmem.freelist` is a list threaded through the free frames themselves: the first word of
a free frame is the address of the next.  `kalloc` takes the head and panics when there
is none; `kfree` checks the address, fills the frame with junk and pushes it.

* `Mem` — physical memory and the allocator.
* `Chain` — the frames on the list, as the words in memory give them.
* `wp_kalloc`, `wp_kfree` — the two calls in terms of the list.
-/

namespace Xv6.Mm

open Lib Prog Function

/-- Physical memory, the head of the free list, and what the boot code fixed.  The last
field records what `allocuvm` does and is read by no code. -/
structure Mem where
  /-- The frames. -/
  ram : ℕ → Page
  /-- `kmem.freelist`: the frame at the head, `0` for null. -/
  freelist : ℕ
  /-- The first frame past the kernel image, from the linker's `end`. -/
  kernelEnd : ℕ
  /-- The frame of the page-directory pointer table of the kernel half. -/
  kpdpt : ℕ
  /-- The frames `allocuvm` has taken for user pages. -/
  granted : List ℕ

namespace Mem

/-- Store a page in a frame. -/
def write (m : Mem) (f : ℕ) (p : Page) : Mem := { m with ram := update m.ram f p }

/-- Set an entry of a frame. -/
def setEntry (m : Mem) (f i v : ℕ) : Mem := m.write f ((m.ram f).setEntry i v)

/-- The head of the free list taken off. -/
def popped (m : Mem) : Mem := { m with freelist := frameOf ((m.ram m.freelist).entry 0) }

/-- A frame pushed on the free list. -/
def pushed (m : Mem) (f : ℕ) : Mem :=
  { m.write f ((Page.fill 1).setEntry 0 (m.freelist * PGSIZE)) with freelist := f }

/-- The frames the allocator manages. -/
def Given (m : Mem) (f : ℕ) : Prop := m.kernelEnd ≤ f ∧ f < PHYSTOP / PGSIZE

end Mem

/-- `kfree`.  Frames are page aligned. -/
def kfree (f : ℕ) : Prog Mem Unit := do
  .panicIf (fun m => decide (f < m.kernelEnd) || decide (PHYSTOP / PGSIZE ≤ f)) "kfree"
  .change fun m => m.pushed f

/-- `kalloc`. -/
def kalloc : Prog Mem (Option ℕ) := do
  let r ← .look Mem.freelist
  if r ≠ 0 then do
    .change Mem.popped
    pure (some r)
  else .panic "Out of memory!"

/-- `freerange`, from one frame up to another. -/
def freerange (lo hi : ℕ) : Prog Mem Unit :=
  Prog.forEach ((List.range (hi - lo)).map (lo + ·)) kfree

/-! ## The list in memory -/

/-- From `v` on, the first words of the frames lead through `l`. -/
def Chain (ram : ℕ → Page) : ℕ → List ℕ → Prop
  | v, [] => v = 0
  | v, f :: l => v = f ∧ f ≠ 0 ∧ Chain ram (frameOf ((ram f).entry 0)) l

variable {m : Mem} {ram ram' : ℕ → Page} {l : List ℕ} {f v : ℕ}

theorem Chain.congr (h : Chain ram v l) (hram : ∀ f ∈ l, ram' f = ram f) : Chain ram' v l := by
  induction l generalizing v with
  | nil => exact h
  | cons f l ih =>
    refine ⟨h.1, h.2.1, ?_⟩
    rw [hram f List.mem_cons_self]
    exact ih h.2.2 fun g hg => hram g (List.mem_cons_of_mem f hg)

theorem Chain.popped (h : Chain m.ram m.freelist (f :: l)) :
    Chain m.popped.ram m.popped.freelist l := by
  have hhead := h.1
  change Chain m.ram (frameOf ((m.ram m.freelist).entry 0)) l
  rw [hhead]
  exact h.2.2

theorem Chain.head_lt (h : Chain m.ram m.freelist l) (hl : ∀ f ∈ l, f < PHYSTOP / PGSIZE) :
    m.freelist < PHYSTOP / PGSIZE := by
  cases l with
  | nil =>
    rw [show m.freelist = 0 from h]
    decide
  | cons f l =>
    rw [h.1]
    exact hl f List.mem_cons_self

theorem Chain.pushed (h : Chain m.ram m.freelist l) (hl : ∀ f ∈ l, f < PHYSTOP / PGSIZE)
    (hf : f ∉ l) (h0 : f ≠ 0) : Chain (m.pushed f).ram (m.pushed f).freelist (f :: l) := by
  have hlt : m.freelist < 57344 := h.head_lt hl
  have hnext : frameOf (((m.pushed f).ram f).entry 0) = m.freelist := by
    change frameOf ((update m.ram f _ f).entry 0) = _
    rw [update_self, Page.entry_setEntry_self]
    · exact Nat.mul_div_cancel _ (by decide)
    · change m.freelist * 4096 < 2 ^ 64
      omega
  refine ⟨rfl, h0, ?_⟩
  rw [hnext]
  refine h.congr fun g hg => update_of_ne ?_ _ _
  rintro rfl
  exact hf hg

/-! ## The calls -/

/-- Enough frames are free, or running out of them is accepted. -/
def Spare (E : String → Prop) (n : ℕ) (l : List ℕ) : Prop := E "Out of memory!" ∨ n ≤ l.length

theorem Spare.mono {E : String → Prop} {n n' k : ℕ} {used l' : List ℕ} (h : Spare E n l)
    (hl : l = used ++ l') (hk : used.length = k) (hn : k + n' ≤ n) : Spare E n' l' := by
  refine h.imp_right fun hle => ?_
  rw [hl, List.length_append] at hle
  omega

theorem Spare.tail {E : String → Prop} {n : ℕ} (h : Spare E (1 + n) (f :: l)) : Spare E n l :=
  h.mono (show f :: l = [f] ++ l from rfl) rfl le_rfl

section Wp

variable {E : String → Prop}

theorem wp_kalloc {Q : Option ℕ → Mem → Prop} (hc : Chain m.ram m.freelist l) (hE : Spare E 1 l)
    (hQ : ∀ f l', l = f :: l' → Q (some f) m.popped) : kalloc.wp E Q m := by
  simp only [kalloc, bind_eq, wp_bind, wp_look]
  cases l with
  | nil =>
    have hnull : m.freelist = 0 := hc
    rw [if_neg (not_not.2 hnull)]
    exact hE.resolve_right (by decide)
  | cons f l =>
    have hhead := hc.1
    rw [hhead, if_pos hc.2.1]
    simp only [wp_bind, wp_change]
    exact hQ f l rfl

theorem wp_kfree {Q : Unit → Mem → Prop} (hf : m.Given f) (hQ : Q () (m.pushed f)) :
    (kfree f).wp E Q m := by
  simp only [kfree, bind_eq, wp_bind, wp_panicIf, wp_change]
  have hc : (decide (f < m.kernelEnd) || decide (PHYSTOP / PGSIZE ≤ f)) = false := by
    rw [Bool.or_eq_false_iff, decide_eq_false_iff_not, decide_eq_false_iff_not]
    exact ⟨not_lt.2 hf.1, not_le.2 hf.2⟩
  rw [hc]
  exact ⟨fun h => Bool.noConfusion h, fun _ => hQ⟩

end Wp

end Xv6.Mm
