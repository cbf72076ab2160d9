import Mathlib

/-!
# The interrupt descriptor table

`mkgate` and `tvinit` of `crates/arch/src/traps.rs` fill the table that the processor reads when an
interrupt or an `int` instruction occurs.  A gate is four words; the processor takes the address of
the handler from three of them, and lets a program enter a gate by `int` only if the privilege
level of the gate allows it.

* `mkgate`, `tvinit` — the words.
* `Gate`, `decode` — what the processor makes of them.
* `decode_mkgate` — a gate is read back as it was made.
* `tvinit_gates` — so is the whole table; and no gate of it can be entered from user mode, not even
  the one of `int 0x40`, by which `ulib` makes its system calls.
-/

namespace Xv6.Arch

open Function

/-- The code segment of the kernel, `SEG_KCODE << 3`. -/
abbrev KERNEL_CS : BitVec 16 := 8

/-- The table, as words. -/
abbrev Idt : Type := ℕ → BitVec 32

def word₀ (addr : BitVec 64) : BitVec 32 :=
  (addr &&& 0xFFFF).setWidth 32 ||| (KERNEL_CS.setWidth 32 <<< 16)

def word₁ (addr : BitVec 64) (pl : BitVec 32) : BitVec 32 :=
  (addr &&& 0xFFFF0000).setWidth 32 ||| 0x8E00 ||| ((pl &&& 3) <<< 13)

def word₂ (addr : BitVec 64) : BitVec 32 := (addr >>> 32).setWidth 32

/-- `mkgate`. -/
def mkgate (idt : Idt) (n : ℕ) (kva : BitVec 64) (pl : BitVec 32) : Idt :=
  update (update (update (update idt (n * 4 + 0) (word₀ kva))
    (n * 4 + 1) (word₁ kva pl)) (n * 4 + 2) (word₂ kva)) (n * 4 + 3) 0

/-- The loop of `tvinit`, from the first gate on. -/
def tvinitLoop (vectors : ℕ → BitVec 64) (idt : Idt) (k : ℕ) : Idt :=
  (List.range k).foldl (fun idt n => mkgate idt n (vectors n) 0) idt

/-- `tvinit`. -/
def tvinit (vectors : ℕ → BitVec 64) : Idt := tvinitLoop vectors (fun _ => 0) 256

/-! ## The processor -/

/-- A gate of the table. -/
@[ext]
structure Gate where
  /-- Where the handler is. -/
  offset : BitVec 64
  selector : BitVec 16
  /-- The entry of the stack table, `0` for none. -/
  ist : BitVec 3
  /-- `0xE` for an interrupt gate. -/
  kind : BitVec 4
  /-- The least privileged level that may enter it by `int`. -/
  dpl : BitVec 2
  present : Bool
  deriving DecidableEq

/-- What the processor reads. -/
def decode (w₀ w₁ w₂ : BitVec 32) : Gate where
  offset := w₂.setWidth 64 <<< 32 ||| (w₁ &&& 0xFFFF0000).setWidth 64 |||
    (w₀ &&& 0xFFFF).setWidth 64
  selector := w₀.extractLsb' 16 16
  ist := w₁.extractLsb' 0 3
  kind := w₁.extractLsb' 8 4
  dpl := w₁.extractLsb' 13 2
  present := w₁.getLsbD 15

/-- The gate of a vector. -/
def gateAt (idt : Idt) (n : ℕ) : Gate := decode (idt (n * 4)) (idt (n * 4 + 1)) (idt (n * 4 + 2))

/-- `int n` at a privilege level is not refused. -/
def Enters (idt : Idt) (n : ℕ) (cpl : BitVec 2) : Prop :=
  (gateAt idt n).present = true ∧ cpl ≤ (gateAt idt n).dpl

/-! ## Back again -/

/-- Two gates are the same if their fields are, bit by bit. -/
theorem Gate.ext_bits {g g' : Gate} (hp : g.present = g'.present)
    (h : ∀ i < 64, g.offset.getLsbD i = g'.offset.getLsbD i ∧
      g.selector.getLsbD i = g'.selector.getLsbD i ∧ g.ist.getLsbD i = g'.ist.getLsbD i ∧
      g.kind.getLsbD i = g'.kind.getLsbD i ∧ g.dpl.getLsbD i = g'.dpl.getLsbD i) : g = g' := by
  have hbits : ∀ {w : ℕ} {x y : BitVec w}, w ≤ 64 →
      (∀ i < 64, x.getLsbD i = y.getLsbD i) → x = y :=
    fun hw hxy => BitVec.eq_of_getLsbD_eq fun i hi => hxy i (hi.trans_le hw)
  refine Gate.ext (hbits le_rfl fun i hi => (h i hi).1) (hbits (by decide) fun i hi => (h i hi).2.1)
    (hbits (by decide) fun i hi => (h i hi).2.2.1) (hbits (by decide) fun i hi => (h i hi).2.2.2.1)
    (hbits (by decide) fun i hi => (h i hi).2.2.2.2) hp

theorem decode_words (kva : BitVec 64) (pl : BitVec 32) :
    decode (word₀ kva) (word₁ kva pl) (word₂ kva) =
    ⟨kva, KERNEL_CS, 0, 0xE, pl.setWidth 2, true⟩ := by
  refine Gate.ext_bits (by simp [decode, word₁]) fun i hi => ?_
  interval_cases i <;> simp [decode, word₀, word₁, word₂]

variable {idt : Idt} {n m k : ℕ} {kva : BitVec 64} {pl : BitVec 32}

/-- A gate is read back as it was made. -/
theorem gateAt_mkgate : gateAt (mkgate idt n kva pl) n = ⟨kva, KERNEL_CS, 0, 0xE, pl.setWidth 2,
    true⟩ := by
  have h₀ : mkgate idt n kva pl (n * 4) = word₀ kva := by
    simp [mkgate]
  have h₁ : mkgate idt n kva pl (n * 4 + 1) = word₁ kva pl := by
    simp [mkgate]
  have h₂ : mkgate idt n kva pl (n * 4 + 2) = word₂ kva := by
    simp [mkgate]
  rw [gateAt, h₀, h₁, h₂, decode_words]

theorem gateAt_mkgate_of_ne (hne : m ≠ n) : gateAt (mkgate idt n kva pl) m = gateAt idt m := by
  have hsame : ∀ i < 4, mkgate idt n kva pl (m * 4 + i) = idt (m * 4 + i) := by
    intro i hi
    simp only [mkgate]
    rw [update_of_ne (by omega), update_of_ne (by omega),
      update_of_ne (by omega), update_of_ne (by omega)]
  have h₀ := hsame 0 (by decide)
  rw [gateAt, gateAt, hsame 1 (by decide), hsame 2 (by decide)]
  rw [add_zero] at h₀
  rw [h₀]

theorem gateAt_tvinitLoop (vectors : ℕ → BitVec 64) (hn : n < k) :
    gateAt (tvinitLoop vectors idt k) n = ⟨vectors n, KERNEL_CS, 0, 0xE, 0, true⟩ := by
  induction k with
  | zero => exact absurd hn (Nat.not_lt_zero n)
  | succ k ih =>
    rw [tvinitLoop, List.range_succ, List.foldl_append]
    change gateAt (mkgate (tvinitLoop vectors idt k) k (vectors k) 0) n = _
    by_cases he : n = k
    · subst he
      rw [gateAt_mkgate]
      rfl
    · rw [gateAt_mkgate_of_ne he]
      exact ih (by omega)

/-- **The table is read as it was meant, and shut to programs.**  Whatever the 256 addresses of the
handlers are, the processor finds at each vector an interrupt gate into the kernel's code at just
that address; and, as every gate has the privilege level of the kernel, `int n` from user mode is
refused for every `n`, though from the kernel it is not. -/
theorem tvinit_gates (vectors : ℕ → BitVec 64) (n : ℕ) (hn : n < 256) :
    gateAt (tvinit vectors) n = ⟨vectors n, KERNEL_CS, 0, 0xE, 0, true⟩ ∧
      ∀ cpl, Enters (tvinit vectors) n cpl ↔ cpl = 0 := by
  have hgate : gateAt (tvinit vectors) n = ⟨vectors n, KERNEL_CS, 0, 0xE, 0, true⟩ :=
    gateAt_tvinitLoop vectors hn
  refine ⟨hgate, fun cpl => ?_⟩
  rw [Enters, hgate]
  simp

/-- The gate of `int 0x40`. -/
theorem tvinit_gates_syscall :
    gateAt (tvinit fun n => BitVec.ofNat 64 (0xFFFF800000100000 + 16 * n)) 0x40 =
      ⟨0xFFFF800000100400, KERNEL_CS, 0, 0xE, 0, true⟩ ∧
    ∀ cpl, Enters (tvinit fun n => BitVec.ofNat 64 (0xFFFF800000100000 + 16 * n)) 0x40 cpl ↔
      cpl = 0 :=
  tvinit_gates (fun n => BitVec.ofNat 64 (0xFFFF800000100000 + 16 * n)) 0x40 (by decide)

end Xv6.Arch
