import Mathlib

/-!
# Little-endian numbers in byte arrays

Byte arrays are functions from positions to bytes.  `readLE f off k` is the
number the `k` bytes at `off` spell, `splice` overwrites a range, and
`byteOf v i` is the `i`-th byte of a number.  A record stored in an array is read
back field by field with two facts: what was written is read back
(`readLE_splice_byteOf`), and a write elsewhere does not disturb a field
(`readLE_splice_of_disjoint`).

The same array read as a bit map has `bitAt`, `setBitAt` and `clearBitAt`, the
mask-and-shift code of a free map, with `bitAt_setBitAt` and `bitAt_clearBitAt`.
-/

namespace Xv6.Lib

/-- The `i`-th byte of `v`, least significant first. -/
def byteOf (v i : ℕ) : UInt8 := UInt8.ofNat (v / 256 ^ i % 256)

/-- `n as i32`. -/
def asI32 (n : ℕ) : ℤ := Int.bmod n (2 ^ 32)

theorem asI32_of_lt {n : ℕ} (h : n < 2 ^ 31) : asI32 n = n := by
  refine Int.bmod_eq_of_le ?_ ?_ <;> omega

/-- The number spelled by the `k` bytes at `off`, least significant first. -/
def readLE (f : ℕ → UInt8) (off : ℕ) : ℕ → ℕ
  | 0 => 0
  | k + 1 => (f off).toNat + 256 * readLE f (off + 1) k

/-- Overwrite the `len` bytes at `off` with those of `src`. -/
def splice (f : ℕ → UInt8) (off len : ℕ) (src : ℕ → UInt8) : ℕ → UInt8 := fun i =>
  if off ≤ i ∧ i < off + len then src (i - off) else f i

theorem splice_of_mem {f src : ℕ → UInt8} {off len i : ℕ} (h₁ : off ≤ i) (h₂ : i < off + len) :
    splice f off len src i = src (i - off) := by
  rw [splice, if_pos ⟨h₁, h₂⟩]

theorem splice_of_not_mem {f src : ℕ → UInt8} {off len i : ℕ} (h : i < off ∨ off + len ≤ i) :
    splice f off len src i = f i := by
  rw [splice, if_neg (by omega)]

theorem toNat_byteOf (v i : ℕ) : (byteOf v i).toNat = v / 256 ^ i % 256 := by
  rw [byteOf, UInt8.toNat_ofNat']
  omega

theorem readLE_congr {f g : ℕ → UInt8} {off k : ℕ}
    (h : ∀ i, off ≤ i → i < off + k → f i = g i) : readLE f off k = readLE g off k := by
  induction k generalizing off with
  | zero => rfl
  | succ k ih =>
    rw [readLE, readLE, h off (le_refl _) (by omega), ih fun i h₁ h₂ => h i (by omega) (by omega)]

/-- The bytes of a number, from the `j`-th on, spell what is left of it. -/
theorem readLE_byteOf (v j off k : ℕ) :
    readLE (fun i => byteOf v (i - off + j)) off k = v / 256 ^ j % 256 ^ k := by
  induction k generalizing off j with
  | zero => simp [readLE, Nat.mod_one]
  | succ k ih =>
    have htail : readLE (fun i => byteOf v (i - off + j)) (off + 1) k =
        readLE (fun i => byteOf v (i - (off + 1) + (j + 1))) (off + 1) k := by
      refine readLE_congr fun i h₁ _ => ?_
      rw [show i - off + j = i - (off + 1) + (j + 1) by omega]
    rw [readLE, htail, ih, Nat.sub_self, Nat.zero_add, toNat_byteOf, pow_succ 256 j,
      ← Nat.div_div_eq_div_mul, pow_succ', Nat.mod_mul]

/-- What was written is read back. -/
theorem readLE_splice_byteOf (f : ℕ → UInt8) (off k v : ℕ) :
    readLE (splice f off k (byteOf v)) off k = v % 256 ^ k := by
  have h := readLE_byteOf v 0 off k
  rw [pow_zero, Nat.div_one] at h
  rw [← h]
  refine readLE_congr fun i h₁ h₂ => ?_
  rw [splice_of_mem h₁ h₂, Nat.add_zero]

/-- A write elsewhere does not disturb a field. -/
theorem readLE_splice_of_disjoint {f src : ℕ → UInt8} {off len off' k : ℕ}
    (h : off' + k ≤ off ∨ off + len ≤ off') :
    readLE (splice f off len src) off' k = readLE f off' k :=
  readLE_congr fun i _ _ => splice_of_not_mem (by omega)

/-! ## Bit maps -/

/-- The mask of bit `i` within its byte: `1 << (i % 8)`. -/
def bitMask (i : ℕ) : UInt8 := 1 <<< UInt8.ofNat (i % 8)

/-- Bit `i` of a map: `f[i / 8] & mask != 0`. -/
def bitAt (f : ℕ → UInt8) (i : ℕ) : Bool := f (i / 8) &&& bitMask i != 0

/-- `f[i / 8] |= mask`. -/
def setBitAt (f : ℕ → UInt8) (i : ℕ) : ℕ → UInt8 :=
  Function.update f (i / 8) (f (i / 8) ||| bitMask i)

/-- `f[i / 8] &= !mask`. -/
def clearBitAt (f : ℕ → UInt8) (i : ℕ) : ℕ → UInt8 :=
  Function.update f (i / 8) (f (i / 8) &&& ~~~(bitMask i))

theorem getLsbD_bitMask (i k : ℕ) :
    (bitMask i).toBitVec.getLsbD k = decide (k = i % 8) := by
  have hi : i % 8 < 8 := Nat.mod_lt _ (by decide)
  have hm : (bitMask i).toBitVec = BitVec.twoPow 8 (i % 8) := by
    rw [bitMask]
    interval_cases i % 8 <;> rfl
  rw [hm, BitVec.getLsbD_twoPow]
  by_cases hk : i % 8 = k
  · simp [hk, show k < 8 by omega]
  · simp [hk, Ne.symm hk]

/-- Testing a bit with its mask is reading it. -/
theorem bitAt_eq_getLsbD (f : ℕ → UInt8) (i : ℕ) :
    bitAt f i = (f (i / 8)).toBitVec.getLsbD (i % 8) := by
  have hi : i % 8 < 8 := Nat.mod_lt _ (by decide)
  have hzero : f (i / 8) &&& bitMask i = 0 ↔ (f (i / 8)).toBitVec.getLsbD (i % 8) = false := by
    rw [← UInt8.toBitVec_inj, BitVec.eq_of_getLsbD_eq_iff]
    constructor
    · intro h
      simpa [getLsbD_bitMask] using h (i % 8) hi
    · intro h k _
      by_cases hk : k = i % 8
      · subst hk
        simp [h]
      · simp [getLsbD_bitMask, hk]
  rw [bitAt]
  cases hb : (f (i / 8)).toBitVec.getLsbD (i % 8)
  · simp [hzero.2 hb]
  · simp [hzero, hb]

/-- Setting a bit sets that bit only. -/
theorem bitAt_setBitAt (f : ℕ → UInt8) (i j : ℕ) :
    bitAt (setBitAt f i) j = (decide (j = i) || bitAt f j) := by
  rw [bitAt_eq_getLsbD, bitAt_eq_getLsbD, setBitAt]
  by_cases hb : j / 8 = i / 8
  · rw [hb, Function.update_self, UInt8.toBitVec_or, BitVec.getLsbD_or, getLsbD_bitMask,
      Bool.or_comm]
    congr 2
    exact propext (by omega)
  · rw [Function.update_of_ne hb, decide_eq_false (by rintro rfl; exact hb rfl), Bool.false_or]

/-- Clearing a bit clears that bit only. -/
theorem bitAt_clearBitAt (f : ℕ → UInt8) (i j : ℕ) :
    bitAt (clearBitAt f i) j = (!decide (j = i) && bitAt f j) := by
  rw [bitAt_eq_getLsbD, bitAt_eq_getLsbD, clearBitAt]
  by_cases hb : j / 8 = i / 8
  · have hj : j % 8 < 8 := Nat.mod_lt _ (by decide)
    rw [hb, Function.update_self, UInt8.toBitVec_and, UInt8.toBitVec_not, BitVec.getLsbD_and,
      BitVec.getLsbD_not, getLsbD_bitMask, decide_eq_true hj, Bool.true_and, Bool.and_comm]
    congr 3
    exact propext (by omega)
  · rw [Function.update_of_ne hb, decide_eq_false (by rintro rfl; exact hb rfl)]
    rfl

end Xv6.Lib
