import Xv6.Param

/-!
# The in-memory log

`struct Log` of `crates/fs/src/log.rs` and the three pieces of code that run
under `log.lock`: the admission test of `begin_op`, the body of `log_write` and
the first half of `end_op`.  They are pure functions here, so that the protocol
machine, the buffer-cache model and the file-system model all run the same code.

`lh.block[0..lh.n]` is kept as the list `block`, so `lh.n` is its length: the
source never reads an entry at or beyond `lh.n`.
-/

namespace Xv6.Fs

/-- `struct Log`, less its spinlock and device number. -/
structure Log where
  /-- Block number of the log header. -/
  start : ℕ
  /-- Blocks of the log area, the header included. -/
  size : ℕ
  /-- How many file-system calls are executing. -/
  outstanding : ℤ
  /-- A commit is in progress. -/
  committing : Bool
  /-- The logged block numbers, `lh.block[0..lh.n]`. -/
  block : List ℕ
  deriving DecidableEq, Repr

namespace Log

/-- `lh.n`. -/
def n (lg : Log) : ℕ := lg.block.length

/-- The log as `initlog` leaves it: nothing logged, nobody inside. -/
def fresh (start size : ℕ) : Log :=
  { start := start, size := size, outstanding := 0, committing := false, block := [] }

/-- The two conditions on which `begin_op` sleeps: a commit is running, or the
reservation for one more operation does not fit. -/
def mustWait (lg : Log) : Bool :=
  lg.committing || decide (((LOGSIZE : ℤ)) < lg.n + (lg.outstanding + 1) * MAXOPBLOCKS)

/-- The test behind the panic `too big a transaction` in `log_write`. -/
def tooBig (lg : Log) : Bool := decide (LOGSIZE ≤ lg.n) || decide (lg.size - 1 ≤ lg.n)

/-- The locked part of `log_write`: absorb a block already logged, else append it.
Writing past the 30 entries of the header is Rust's index panic, `none`. -/
def record (lg : Log) (b : ℕ) : Option Log :=
  if b ∈ lg.block then some lg
  else if lg.n < LOGSIZE then some { lg with block := lg.block ++ [b] }
  else none

/-- The locked part of `begin_op` once it is admitted. -/
def enter (lg : Log) : Log := { lg with outstanding := lg.outstanding + 1 }

/-- `outstanding -= 1`, the first thing `end_op` does. -/
def leave (lg : Log) : Log := { lg with outstanding := lg.outstanding - 1 }

/-! ## Small facts -/

theorem mustWait_iff (lg : Log) : lg.mustWait = true ↔
    lg.committing = true ∨ (LOGSIZE : ℤ) < lg.n + (lg.outstanding + 1) * MAXOPBLOCKS := by
  simp [mustWait]

theorem tooBig_iff (lg : Log) : lg.tooBig = true ↔ LOGSIZE ≤ lg.n ∨ lg.size - 1 ≤ lg.n := by
  simp [tooBig]

theorem tooBig_eq_false_iff (lg : Log) :
    lg.tooBig = false ↔ lg.n < LOGSIZE ∧ lg.n < lg.size - 1 := by
  rw [← Bool.not_eq_true, tooBig_iff]
  omega

/-- What `log_write` leaves behind: only the list of logged blocks changes, and
it changes by the one block at most. -/
theorem record_eq_some_iff {lg lg' : Log} {b : ℕ} : lg.record b = some lg' ↔
    (b ∈ lg.block ∧ lg' = lg) ∨
      (b ∉ lg.block ∧ lg.n < LOGSIZE ∧ lg' = { lg with block := lg.block ++ [b] }) := by
  unfold record
  split_ifs with h h'
  · simp [h, eq_comm]
  · simp [h, h', eq_comm]
  · simp [h, h']

/-- The log once a block is recorded. -/
def recorded (lg : Log) (b : ℕ) : Log :=
  if b ∈ lg.block then lg else { lg with block := lg.block ++ [b] }

theorem record_of_lt {lg : Log} (h : lg.n < LOGSIZE) (b : ℕ) :
    lg.record b = some (lg.recorded b) := by
  unfold record recorded
  split_ifs <;> rfl

theorem mem_record {lg lg' : Log} {b x : ℕ} (h : lg.record b = some lg') :
    x ∈ lg'.block ↔ x = b ∨ x ∈ lg.block := by
  rcases record_eq_some_iff.1 h with ⟨hb, rfl⟩ | ⟨-, -, rfl⟩
  · constructor
    · exact .inr
    · rintro (rfl | hx)
      · exact hb
      · exact hx
  · simp [or_comm]

theorem nodup_record {lg lg' : Log} {b : ℕ} (hn : lg.block.Nodup)
    (h : lg.record b = some lg') : lg'.block.Nodup := by
  rcases record_eq_some_iff.1 h with ⟨-, rfl⟩ | ⟨hb, -, rfl⟩
  · exact hn
  · exact hn.append (List.nodup_singleton b) (by simpa using hb)

theorem n_le_record {lg lg' : Log} {b : ℕ} (h : lg.record b = some lg') : lg.n ≤ lg'.n := by
  rcases record_eq_some_iff.1 h with ⟨-, rfl⟩ | ⟨-, -, rfl⟩
  · exact le_refl _
  · simp [n]

theorem record_fields {lg lg' : Log} {b : ℕ} (h : lg.record b = some lg') :
    lg'.start = lg.start ∧ lg'.size = lg.size ∧ lg'.outstanding = lg.outstanding ∧
      lg'.committing = lg.committing := by
  rcases record_eq_some_iff.1 h with ⟨-, rfl⟩ | ⟨-, -, rfl⟩ <;> exact ⟨rfl, rfl, rfl, rfl⟩

/-! ## Room for a set of blocks -/

/-- An open transaction can log every block of `F`, in any order and any number of
times. -/
structure Room (lg : Log) (F : Finset ℕ) : Prop where
  /-- No block is logged twice. -/
  nodup : lg.block.Nodup
  /-- A transaction is open. -/
  outstanding : 1 ≤ lg.outstanding
  /-- No commit is running. -/
  committing : lg.committing = false
  /-- The blocks fit, with those logged already. -/
  fits : (lg.block.toFinset ∪ F).card < min LOGSIZE (lg.size - 1)

namespace Room

variable {lg : Log} {F F' : Finset ℕ}

theorem n_lt (h : lg.Room F) : lg.n < LOGSIZE ∧ lg.n < lg.size - 1 := by
  have hcard : lg.n ≤ (lg.block.toFinset ∪ F).card := by
    rw [n, ← List.toFinset_card_of_nodup h.nodup]
    exact Finset.card_le_card Finset.subset_union_left
  have hfits := h.fits
  omega

theorem tooBig (h : lg.Room F) : lg.tooBig = false := (tooBig_eq_false_iff lg).2 h.n_lt

theorem mono (h : lg.Room F) (hsub : F' ⊆ F) : lg.Room F' where
  nodup := h.nodup
  outstanding := h.outstanding
  committing := h.committing
  fits := lt_of_le_of_lt (Finset.card_le_card (Finset.union_subset_union_right hsub)) h.fits

/-- Logging one of the blocks leaves room for all of them. -/
theorem recorded (h : lg.Room F) {b : ℕ} (hb : b ∈ F) : (lg.recorded b).Room F := by
  unfold Log.recorded
  split_ifs with hmem
  · exact h
  · refine ⟨h.nodup.append (List.nodup_singleton b) (by simpa using hmem), h.outstanding,
      h.committing, ?_⟩
    have hset : (lg.block ++ [b]).toFinset ∪ F = lg.block.toFinset ∪ F := by
      rw [List.toFinset_append, Finset.union_assoc]
      congr 1
      simpa using hb
    rw [hset]
    exact h.fits

end Room

/-- The log has room for the blocks of `F`, or every panic is accepted. -/
def RoomOr (lg : Log) (E : String → Prop) (F : Finset ℕ) : Prop := lg.Room F ∨ ∀ msg, E msg

theorem RoomOr.recorded {lg : Log} {E : String → Prop} {F : Finset ℕ} (h : lg.RoomOr E F) {b : ℕ}
    (hb : b ∈ F) : (lg.recorded b).RoomOr E F :=
  h.imp_left fun hr => hr.recorded hb

end Log

end Xv6.Fs
