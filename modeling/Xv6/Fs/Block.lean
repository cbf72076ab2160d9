import Xv6.Param
import Xv6.Lib.Bytes

/-!
# Disk blocks

A block is the `[u8; BSIZE]` of a buffer.  It is kept as a function on all
positions that is zero from `BSIZE` on, so that two blocks are equal as soon as
their `BSIZE` bytes are.  The code reads and writes blocks in three ways: byte
ranges (`Block.splice`, the `copy_nonoverlapping` and `fill` calls); through a
pointer cast, little-endian words (`Block.word`, `Block.setWord`,
`Block.putWords`), which is how the log header, the indirect blocks, the inodes
and the superblock are laid out; and as a bit map (`Block.bit`), the free map.
-/

namespace Xv6.Fs

open Lib

/-- The contents of a disk block. -/
structure Block where
  /-- The byte at a position. -/
  byte : ℕ → UInt8
  /-- Nothing is stored beyond the end. -/
  beyond : ∀ i, BSIZE ≤ i → byte i = 0

namespace Block

theorem ext_byte {a b : Block} (h : ∀ i, i < BSIZE → a.byte i = b.byte i) : a = b := by
  obtain ⟨fa, ha⟩ := a
  obtain ⟨fb, hb⟩ := b
  have hf : fa = fb := by
    funext i
    by_cases hi : i < BSIZE
    · exact h i hi
    · rw [ha i (by omega), hb i (by omega)]
  subst hf
  rfl

instance : DecidableEq Block := fun a b =>
  decidable_of_iff (∀ i ∈ List.range BSIZE, a.byte i = b.byte i)
    ⟨fun h => ext_byte fun i hi => h i (List.mem_range.2 hi), fun h _ _ => h ▸ rfl⟩

/-- The zeroed block. -/
def zero : Block := ⟨fun _ => 0, fun _ _ => rfl⟩

instance : Inhabited Block := ⟨zero⟩

@[simp] theorem byte_zero (i : ℕ) : zero.byte i = 0 := rfl

/-- Overwrite a range of bytes; what would lie beyond the end is dropped. -/
def splice (b : Block) (off len : ℕ) (src : ℕ → UInt8) : Block where
  byte i := if i < BSIZE then Lib.splice b.byte off len src i else 0
  beyond i hi := if_neg (by omega)

theorem byte_splice {b : Block} {off len : ℕ} {src : ℕ → UInt8} {i : ℕ} (hi : i < BSIZE) :
    (b.splice off len src).byte i = Lib.splice b.byte off len src i :=
  if_pos hi

/-- The word at index `j`: `*(data as *const uint).add(j)`. -/
def word (b : Block) (j : ℕ) : ℕ := readLE b.byte (4 * j) 4

/-- Store a word at index `j`. -/
def setWord (b : Block) (j v : ℕ) : Block := b.splice (4 * j) 4 (byteOf v)

@[simp] theorem word_zero (j : ℕ) : zero.word j = 0 := by
  simp [word, readLE]

/-- Inside the block, a splice reads as a splice of the bytes. -/
theorem readLE_splice {b : Block} {off len : ℕ} {src : ℕ → UInt8} {off' k : ℕ}
    (h : off' + k ≤ BSIZE) :
    readLE (b.splice off len src).byte off' k = readLE (Lib.splice b.byte off len src) off' k :=
  readLE_congr fun _ _ hi => byte_splice (by omega)

theorem word_setWord_self (b : Block) {j v : ℕ} (hj : j < BSIZE / 4) (hv : v < 2 ^ 32) :
    (b.setWord j v).word j = v := by
  rw [word, setWord, readLE_splice (by omega), readLE_splice_byteOf, Nat.mod_eq_of_lt (by omega)]

theorem word_setWord_of_ne (b : Block) {i j v : ℕ} (hi : i < BSIZE / 4) (h : i ≠ j) :
    (b.setWord j v).word i = b.word i := by
  rw [word, setWord, readLE_splice (by omega), readLE_splice_of_disjoint (by omega)]
  rfl

/-! ## Several words -/

/-- Store the words of a list from index `k` on. -/
def putWords (b : Block) (k : ℕ) : List ℕ → Block
  | [] => b
  | v :: vs => (b.setWord k v).putWords (k + 1) vs

theorem word_putWords (b : Block) (k : ℕ) (l : List ℕ) (hl : ∀ v ∈ l, v < 2 ^ 32) {i : ℕ}
    (hi : i < BSIZE / 4) :
    (b.putWords k l).word i = if k ≤ i ∧ i < k + l.length then l.getD (i - k) 0 else b.word i := by
  induction l generalizing b k with
  | nil =>
    rw [putWords, List.length_nil, if_neg (by omega)]
  | cons v vs ih =>
    have hvs : ∀ w ∈ vs, w < 2 ^ 32 := fun w hw => hl w (List.mem_cons_of_mem _ hw)
    rw [putWords, ih _ _ hvs, List.length_cons]
    by_cases hk : i = k
    · subst hk
      rw [if_neg (by omega), if_pos (by omega), word_setWord_self b hi (hl v List.mem_cons_self),
        Nat.sub_self, List.getD_cons_zero]
    · rw [word_setWord_of_ne b hi hk]
      by_cases hin : k + 1 ≤ i ∧ i < k + 1 + vs.length
      · rw [if_pos hin, if_pos (by omega)]
        obtain ⟨j, rfl⟩ : ∃ j, i = k + 1 + j := ⟨i - (k + 1), by omega⟩
        rw [Nat.add_sub_cancel_left, show k + 1 + j - k = j + 1 by omega, List.getD_cons_succ]
      · rw [if_neg hin, if_neg (by omega)]

/-! ## A block as a bit map -/

/-- Bit `i` of the map. -/
def bit (b : Block) (i : ℕ) : Bool := bitAt b.byte i

/-- Set bit `i`. -/
def setBit (b : Block) (i : ℕ) : Block where
  byte k := if k < BSIZE then setBitAt b.byte i k else 0
  beyond k hk := if_neg (by omega)

/-- Clear bit `i`. -/
def clearBit (b : Block) (i : ℕ) : Block where
  byte k := if k < BSIZE then clearBitAt b.byte i k else 0
  beyond k hk := if_neg (by omega)

theorem bit_setBit (b : Block) (i : ℕ) {j : ℕ} (hj : j < BSIZE * 8) :
    (b.setBit i).bit j = (decide (j = i) || b.bit j) := by
  have hbyte : (b.setBit i).byte (j / 8) = setBitAt b.byte i (j / 8) := if_pos (by omega)
  rw [bit, bit, ← bitAt_setBitAt, bitAt, bitAt, hbyte]

theorem bit_clearBit (b : Block) (i : ℕ) {j : ℕ} (hj : j < BSIZE * 8) :
    (b.clearBit i).bit j = (!decide (j = i) && b.bit j) := by
  have hbyte : (b.clearBit i).byte (j / 8) = clearBitAt b.byte i (j / 8) := if_pos (by omega)
  rw [bit, bit, ← bitAt_clearBitAt, bitAt, bitAt, hbyte]

@[simp] theorem bit_zero (i : ℕ) : zero.bit i = false := by
  simp [bit, bitAt]

/-! ## A range of bytes as a list -/

/-- The `len` bytes from position `off` on. -/
def bytes (b : Block) (off len : ℕ) : List UInt8 := (List.range len).map fun i => b.byte (off + i)

@[simp] theorem length_bytes (b : Block) (off len : ℕ) : (b.bytes off len).length = len := by
  simp [bytes]

end Block

end Xv6.Fs
