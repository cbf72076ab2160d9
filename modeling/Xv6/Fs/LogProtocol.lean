import Xv6.Lib.Machine
import Xv6.Fs.Log

/-!
# The log protocol: `begin_op`, `log_write`, `end_op`

Any number of processes run the three entry points of `crates/fs/src/log.rs`.
Each section under `log.lock` is one step, `sleep` releases the lock and puts
the caller to sleep in the same step, and the two checks at the top of
`log_write`, which the source makes *before* it takes the lock, are a step of
their own.

* `Pc` — where a process is; `State` — the log, the processes, and two records
  of the arguments passed so far that the code does not have (`passed`, `group`).
* `step` — what one process does next; `Act` says which process and what.
* `log_protocol` — a commit runs only when no operation is open, the panic
  `log.committing` is unreachable, no `log_write` overlaps a commit, and whoever
  is asleep in `begin_op` has a reason to be in the current state.
* `too_big_reachable` — three operations that stay within `MAXOPBLOCKS` can
  still fill the log: `begin_op` reserves against `LOGSIZE` while only
  `nlog - 1` data blocks exist.
* `log_space_of_room` — the exact reserve: as long as every `log_write` is made
  while fewer than `nlog - 1` distinct blocks have been passed since the last
  commit, it neither panics nor overfills the log area.
-/

namespace Xv6.Fs.LogProtocol

open Lib Function

/-! ## Processes -/

/-- Where a process is, as far as the log is concerned. -/
inductive Pc where
  /-- Outside any operation. -/
  | user
  /-- In `begin_op`, about to take `log.lock` and test. -/
  | begin
  /-- In `begin_op`, asleep on the log. -/
  | asleep
  /-- Between `begin_op` and `end_op`. -/
  | op
  /-- In `log_write(b)`, past the unlocked checks, about to take `log.lock`. -/
  | logging (b : ℕ)
  /-- In `end_op`, running `commit()`. -/
  | commit
  /-- In `end_op`, `commit()` done, about to take `log.lock` again. -/
  | committed
  deriving DecidableEq, Repr

/-- Is the process between its `begin_op` and its `end_op`? -/
def Pc.inOp : Pc → Bool
  | .op => true
  | .logging _ => true
  | _ => false

/-- Is the process the one that commits? -/
def Pc.inCommit : Pc → Bool
  | .commit => true
  | .committed => true
  | _ => false

/-- `wakeup` on the log: a sleeper runs again and will retake the lock. -/
def Pc.wake : Pc → Pc
  | .asleep => .begin
  | pc => pc

/-- The log and its processes.  `passed` and `group` record arguments only:
they are never read by `step`. -/
structure State (P : Type) where
  log : Log
  pc : P → Pc
  /-- The kernel has panicked with this message. -/
  panic : Option String
  /-- Block numbers a process has passed to `log_write` since its `begin_op`. -/
  passed : P → Finset ℕ
  /-- Block numbers passed to `log_write` by anyone since the last commit. -/
  group : Finset ℕ

/-- What a process does next. -/
inductive Act (P : Type) where
  /-- Call `begin_op`. -/
  | beginOp (p : P)
  /-- One turn of the loop in `begin_op`, under the lock. -/
  | tryEnter (p : P)
  /-- Call `log_write(b)` and make its unlocked checks. -/
  | logWrite (p : P) (b : ℕ)
  /-- The locked part of `log_write`. -/
  | record (p : P)
  /-- Call `end_op`: its first locked section. -/
  | endOp (p : P)
  /-- The body of `commit()`, up to and including `lh.n = 0`. -/
  | commit (p : P)
  /-- The second locked section of `end_op`. -/
  | finish (p : P)
  /-- `kill` makes a sleeper runnable. -/
  | kill (p : P)
  deriving DecidableEq, Repr

variable {P : Type} [DecidableEq P]

namespace State

/-- Move process `p` to `pc`. -/
def goto (s : State P) (p : P) (pc : Pc) : State P := { s with pc := update s.pc p pc }

/-- `wakeup(log)`: every sleeper becomes runnable. -/
def wakeup (s : State P) : State P := { s with pc := fun q => (s.pc q).wake }

/-- Halt with a message. -/
def fail (s : State P) (msg : String) : State P := { s with panic := some msg }

end State

/-- One step of one process; `none` when the process is not at that point of the
code, or the kernel has panicked. -/
def step (s : State P) : Act P → Option (State P)
  | .beginOp p =>
      if s.panic.isNone ∧ s.pc p = .user then some (s.goto p .begin) else none
  | .tryEnter p =>
      if s.panic.isNone ∧ s.pc p = .begin then
        if s.log.mustWait then some (s.goto p .asleep)
        else some { s.goto p .op with
          log := s.log.enter, passed := update s.passed p ∅ }
      else none
  | .logWrite p b =>
      if s.panic.isNone ∧ s.pc p = .op then
        if s.log.tooBig then some (s.fail "too big a transaction")
        else if s.log.outstanding < 1 then some (s.fail "log_write outside of trans")
        else some { s.goto p (.logging b) with
          passed := update s.passed p (insert b (s.passed p)), group := insert b s.group }
      else none
  | .record p =>
      match s.panic, s.pc p with
      | none, .logging b =>
          match s.log.record b with
          | some lg => some { s.goto p .op with log := lg }
          | none => some (s.fail "index out of bounds")
      | _, _ => none
  | .endOp p =>
      if s.panic.isNone ∧ s.pc p = .op then
        if s.log.committing then
          some ({ s with log := s.log.leave }.fail "log.committing")
        else if s.log.leave.outstanding = 0 then
          some { s.goto p .commit with log := { s.log.leave with committing := true } }
        else some (({ s with log := s.log.leave }.wakeup).goto p .user)
      else none
  | .commit p =>
      if s.panic.isNone ∧ s.pc p = .commit then
        some { s.goto p .committed with log := { s.log with block := [] }, group := ∅ }
      else none
  | .finish p =>
      if s.panic.isNone ∧ s.pc p = .committed then
        some (({ s with log := { s.log with committing := false } }.wakeup).goto p .user)
      else none
  | .kill p =>
      if s.panic.isNone ∧ s.pc p = .asleep then some (s.goto p .begin) else none

/-- After `initlog`: an empty log of `size` blocks and every process outside. -/
def init (P : Type) (start size : ℕ) : State P where
  log := Log.fresh start size
  pc := fun _ => .user
  panic := none
  passed := fun _ => ∅
  group := ∅

/-! ## What each step does -/

section Steps

variable {s s' : State P} {p q : P} {b : ℕ}

@[simp] theorem goto_pc_self (s : State P) (p : P) (c : Pc) : (s.goto p c).pc p = c := by
  simp [State.goto]

theorem goto_pc_of_ne (s : State P) {p q : P} (c : Pc) (h : q ≠ p) :
    (s.goto p c).pc q = s.pc q := by
  simp [State.goto, h]

theorem step_beginOp (h : step s (.beginOp p) = some s') :
    s.panic = none ∧ s.pc p = .user ∧ s' = s.goto p .begin := by
  simp only [step] at h
  split_ifs at h with hc
  exact ⟨Option.isNone_iff_eq_none.1 hc.1, hc.2, (Option.some.inj h).symm⟩

theorem step_tryEnter (h : step s (.tryEnter p) = some s') :
    s.panic = none ∧ s.pc p = .begin ∧
      ((s.log.mustWait = true ∧ s' = s.goto p .asleep) ∨
       (s.log.mustWait = false ∧ s' = { s.goto p .op with
          log := s.log.enter, passed := update s.passed p ∅ })) := by
  simp only [step] at h
  split_ifs at h with hc hw
  · exact ⟨Option.isNone_iff_eq_none.1 hc.1, hc.2, Or.inl ⟨hw, (Option.some.inj h).symm⟩⟩
  · exact ⟨Option.isNone_iff_eq_none.1 hc.1, hc.2,
      Or.inr ⟨by simpa using hw, (Option.some.inj h).symm⟩⟩

theorem step_logWrite (h : step s (.logWrite p b) = some s') :
    s.panic = none ∧ s.pc p = .op ∧
      ((s.log.tooBig = true ∧ s' = s.fail "too big a transaction") ∨
       (s.log.tooBig = false ∧ s.log.outstanding < 1 ∧
          s' = s.fail "log_write outside of trans") ∨
       (s.log.tooBig = false ∧ ¬ s.log.outstanding < 1 ∧ s' = { s.goto p (.logging b) with
          passed := update s.passed p (insert b (s.passed p)),
          group := insert b s.group })) := by
  simp only [step] at h
  split_ifs at h with hc hb ho
  · exact ⟨Option.isNone_iff_eq_none.1 hc.1, hc.2, Or.inl ⟨hb, (Option.some.inj h).symm⟩⟩
  · exact ⟨Option.isNone_iff_eq_none.1 hc.1, hc.2,
      Or.inr (Or.inl ⟨by simpa using hb, ho, (Option.some.inj h).symm⟩)⟩
  · exact ⟨Option.isNone_iff_eq_none.1 hc.1, hc.2,
      Or.inr (Or.inr ⟨by simpa using hb, ho, (Option.some.inj h).symm⟩)⟩

theorem step_record (h : step s (.record p) = some s') :
    s.panic = none ∧ ∃ b, s.pc p = .logging b ∧
      ((∃ lg, s.log.record b = some lg ∧ s' = { s.goto p .op with log := lg }) ∨
       (s.log.record b = none ∧ s' = s.fail "index out of bounds")) := by
  simp only [step] at h
  split at h
  · rename_i b hpanic hpc
    refine ⟨hpanic, b, hpc, ?_⟩
    split at h
    · rename_i lg hlg
      exact .inl ⟨lg, hlg, (Option.some.inj h).symm⟩
    · rename_i hlg
      exact .inr ⟨hlg, (Option.some.inj h).symm⟩
  · cases h

theorem step_endOp (h : step s (.endOp p) = some s') :
    s.panic = none ∧ s.pc p = .op ∧
      ((s.log.committing = true ∧
          s' = { s with log := s.log.leave }.fail "log.committing") ∨
       (s.log.committing = false ∧ s.log.leave.outstanding = 0 ∧
          s' = { s.goto p .commit with log := { s.log.leave with committing := true } }) ∨
       (s.log.committing = false ∧ s.log.leave.outstanding ≠ 0 ∧
          s' = ({ s with log := s.log.leave }.wakeup).goto p .user)) := by
  simp only [step] at h
  split_ifs at h with hc hm ho
  · exact ⟨Option.isNone_iff_eq_none.1 hc.1, hc.2, Or.inl ⟨hm, (Option.some.inj h).symm⟩⟩
  · exact ⟨Option.isNone_iff_eq_none.1 hc.1, hc.2,
      Or.inr (Or.inl ⟨by simpa using hm, ho, (Option.some.inj h).symm⟩)⟩
  · exact ⟨Option.isNone_iff_eq_none.1 hc.1, hc.2,
      Or.inr (Or.inr ⟨by simpa using hm, ho, (Option.some.inj h).symm⟩)⟩

theorem step_commit (h : step s (.commit p) = some s') :
    s.panic = none ∧ s.pc p = .commit ∧ s' = { s.goto p .committed with
      log := { s.log with block := [] }, group := ∅ } := by
  simp only [step] at h
  split_ifs at h with hc
  exact ⟨Option.isNone_iff_eq_none.1 hc.1, hc.2, (Option.some.inj h).symm⟩

theorem step_finish (h : step s (.finish p) = some s') :
    s.panic = none ∧ s.pc p = .committed ∧
      s' = ({ s with log := { s.log with committing := false } }.wakeup).goto p .user := by
  simp only [step] at h
  split_ifs at h with hc
  exact ⟨Option.isNone_iff_eq_none.1 hc.1, hc.2, (Option.some.inj h).symm⟩

theorem step_kill (h : step s (.kill p) = some s') :
    s.panic = none ∧ s.pc p = .asleep ∧ s' = s.goto p .begin := by
  simp only [step] at h
  split_ifs at h with hc
  exact ⟨Option.isNone_iff_eq_none.1 hc.1, hc.2, (Option.some.inj h).symm⟩

end Steps

/-! ## The protocol invariant -/

section Protocol

variable [Fintype P]

/-- How many processes are inside an operation. -/
def openOps (pc : P → Pc) : ℕ := ∑ q, if (pc q).inOp then 1 else 0

/-- The invariant of the protocol. -/
structure Inv (s : State P) : Prop where
  /-- `outstanding` counts the processes inside an operation. -/
  count : s.log.outstanding = openOps s.pc
  /-- Nobody is inside an operation while a commit runs. -/
  quiet : s.log.committing = true → ∀ p, (s.pc p).inOp = false
  /-- A process that commits has `committing` set. -/
  committer : ∀ p, (s.pc p).inCommit = true → s.log.committing = true
  /-- At most one process commits. -/
  unique : ∀ p q, (s.pc p).inCommit = true → (s.pc q).inCommit = true → p = q
  /-- A sleeper still has to wait. -/
  asleep : ∀ p, s.pc p = .asleep → s.log.mustWait = true
  /-- `end_op` never finds a commit running. -/
  noPanic : s.panic ≠ some "log.committing"

theorem openOps_update (pc : P → Pc) (p : P) (c : Pc) :
    openOps (update pc p c) + (if (pc p).inOp then 1 else 0) =
      openOps pc + (if c.inOp then 1 else 0) :=
  sum_update_add (fun c : Pc => if c.inOp then 1 else 0) pc p c

theorem inOp_wake (c : Pc) : c.wake.inOp = c.inOp := by cases c <;> rfl

theorem inCommit_wake (c : Pc) : c.wake.inCommit = c.inCommit := by cases c <;> rfl

theorem wake_ne_asleep (c : Pc) : c.wake ≠ .asleep := by cases c <;> simp [Pc.wake]

omit [DecidableEq P] in
theorem openOps_wake (pc : P → Pc) : openOps (fun q => (pc q).wake) = openOps pc := by
  simp only [openOps, inOp_wake]

omit [DecidableEq P] in
theorem openOps_eq_zero {pc : P → Pc} : openOps pc = 0 ↔ ∀ p, (pc p).inOp = false := by
  simp [openOps]

omit [DecidableEq P] in
/-- A process inside an operation rules out a running commit. -/
theorem Inv.not_committing {s : State P} (h : Inv s) {p : P} (hp : (s.pc p).inOp = true) :
    s.log.committing = false := by
  cases hc : s.log.committing with
  | false => rfl
  | true => rw [h.quiet hc p] at hp; cases hp

/-- A sleeper's reason survives a step that keeps the log and lets nobody else sleep. -/
theorem Inv.goto {s : State P} (h : Inv s) {p : P} {c : Pc}
    (hop : c.inOp = (s.pc p).inOp) (hcm : c.inCommit = (s.pc p).inCommit)
    (hsl : c = .asleep → s.log.mustWait = true) : Inv (s.goto p c) := by
  have hopq : ∀ q, ((s.goto p c).pc q).inOp = (s.pc q).inOp := by
    intro q
    by_cases hq : q = p
    · subst hq; simpa using hop
    · rw [goto_pc_of_ne s c hq]
  have hcmq : ∀ q, ((s.goto p c).pc q).inCommit = (s.pc q).inCommit := by
    intro q
    by_cases hq : q = p
    · subst hq; simpa using hcm
    · rw [goto_pc_of_ne s c hq]
  refine ⟨?_, ?_, ?_, ?_, ?_, h.noPanic⟩
  · show s.log.outstanding = openOps (s.goto p c).pc
    rw [h.count, openOps, openOps]
    simp only [hopq]
  · intro hc q
    rw [hopq q]
    exact h.quiet hc q
  · intro q hq
    rw [hcmq q] at hq
    exact h.committer q hq
  · intro q r hq hr
    rw [hcmq q] at hq
    rw [hcmq r] at hr
    exact h.unique q r hq hr
  · intro q hq
    by_cases hqp : q = p
    · subst hqp
      exact hsl (by simpa using hq)
    · rw [goto_pc_of_ne s c hqp] at hq
      exact h.asleep q hq

omit [DecidableEq P] in
/-- A panic other than `log.committing` keeps the invariant: the processes and the
log stay as they are. -/
theorem Inv.fail {s : State P} (h : Inv s) {msg : String} (hm : msg ≠ "log.committing") :
    Inv (s.fail msg) :=
  ⟨h.count, h.quiet, h.committer, h.unique, h.asleep, by simpa [State.fail] using hm⟩

/-- A process admitted by `begin_op` finds no commit running, and the reservation
only grows, so sleepers keep waiting. -/
theorem Inv.enter {s : State P} (h : Inv s) {p : P} (hp : s.pc p = .begin)
    (hw : s.log.mustWait = false) : Inv { s.goto p .op with
      log := s.log.enter, passed := update s.passed p ∅ } := by
  have hcom : s.log.committing = false := by
    cases hc : s.log.committing with
    | false => rfl
    | true => rw [Log.mustWait, hc] at hw; cases hw
  have hnc : ∀ q, (s.pc q).inCommit = false := by
    intro q
    by_contra hq
    rw [h.committer q (by simpa using hq)] at hcom
    cases hcom
  have hpc : ∀ q, q ≠ p → ({ s.goto p .op with
      log := s.log.enter, passed := update s.passed p ∅ } : State P).pc q = s.pc q :=
    fun q hq => goto_pc_of_ne s .op hq
  refine ⟨?_, ?_, ?_, ?_, ?_, h.noPanic⟩
  · have hcount := openOps_update s.pc p .op
    rw [hp] at hcount
    simp only [Pc.inOp, Bool.false_eq_true, if_false, if_true] at hcount
    show s.log.outstanding + 1 = ((openOps (update s.pc p .op) : ℕ) : ℤ)
    rw [h.count]
    omega
  · intro hc
    rw [show s.log.enter.committing = s.log.committing from rfl, hcom] at hc
    cases hc
  · intro q hq
    by_cases hqp : q = p
    · subst hqp; simp [State.goto, Pc.inCommit] at hq
    · rw [hpc q hqp, hnc q] at hq; cases hq
  · intro q r hq hr
    by_cases hqp : q = p
    · subst hqp; simp [State.goto, Pc.inCommit] at hq
    · rw [hpc q hqp, hnc q] at hq; cases hq
  · intro q hq
    by_cases hqp : q = p
    · subst hqp; simp [State.goto] at hq
    · rw [hpc q hqp] at hq
      have hwait := h.asleep q hq
      rw [hw] at hwait
      cases hwait

/-- Recording a block only lengthens the list, so a sleeper keeps its reason. -/
theorem Inv.record {s : State P} (h : Inv s) {p : P} {b : ℕ} {lg : Log}
    (hp : s.pc p = .logging b) (hr : s.log.record b = some lg) :
    Inv { s.goto p .op with log := lg } := by
  have hg : Inv (s.goto p .op) := h.goto (by rw [hp]; rfl) (by rw [hp]; rfl) (by simp)
  obtain ⟨-, -, hout, hcom⟩ := Log.record_fields hr
  have hn := Log.n_le_record hr
  refine ⟨?_, ?_, ?_, hg.unique, ?_, hg.noPanic⟩
  · show lg.outstanding = _
    rw [hout]
    exact hg.count
  · intro hc
    exact hg.quiet (hcom ▸ hc)
  · intro q hq
    show lg.committing = true
    rw [hcom]
    exact hg.committer q hq
  · intro q hq
    have hwait := hg.asleep q hq
    show lg.mustWait = true
    rw [Log.mustWait_iff] at hwait ⊢
    rcases hwait with hc | hlt
    · exact .inl (hcom ▸ hc)
    · refine .inr ?_
      have hlt' : (LOGSIZE : ℤ) < s.log.n + (s.log.outstanding + 1) * MAXOPBLOCKS := hlt
      rw [hout]
      omega

/-- The last `end_op` of a group: nobody else is inside an operation, and every
sleeper now waits for the commit. -/
theorem Inv.startCommit {s : State P} (h : Inv s) {p : P} (hp : s.pc p = .op)
    (hz : s.log.leave.outstanding = 0) : Inv { s.goto p .commit with
      log := { s.log.leave with committing := true } } := by
  have hcount := openOps_update s.pc p .commit
  rw [hp] at hcount
  simp only [Pc.inOp, Bool.false_eq_true, if_false, if_true] at hcount
  have hone : (s.log.outstanding : ℤ) - 1 = 0 := hz
  rw [h.count] at hone
  have hzero : openOps (update s.pc p .commit) = 0 := by omega
  have hcom : s.log.committing = false := h.not_committing (by rw [hp]; rfl)
  have hother : ∀ q, q ≠ p → (s.pc q).inCommit = false := by
    intro q _
    by_contra hq
    rw [h.committer q (by simpa using hq)] at hcom
    cases hcom
  have hcp : ∀ q, (update s.pc p .commit q).inCommit = true → q = p := by
    intro q hq
    by_contra hqp
    rw [update_of_ne hqp, hother q hqp] at hq
    cases hq
  refine ⟨?_, fun _ => openOps_eq_zero.1 hzero, fun _ _ => rfl, ?_, ?_, h.noPanic⟩
  · show s.log.outstanding - 1 = ((openOps (update s.pc p .commit) : ℕ) : ℤ)
    rw [hzero, h.count]
    simpa using hone
  · intro q r hq hr
    rw [hcp q hq, hcp r hr]
  · intro q _
    rw [Log.mustWait_iff]
    exact .inl rfl

/-- An `end_op` that does not commit wakes every sleeper. -/
theorem Inv.leave {s : State P} (h : Inv s) {p : P} (hp : s.pc p = .op) :
    Inv (({ s with log := s.log.leave }.wakeup).goto p .user) := by
  have hpc : ∀ q, q ≠ p →
      (({ s with log := s.log.leave }.wakeup).goto p .user).pc q = (s.pc q).wake :=
    fun q hq => goto_pc_of_ne _ .user hq
  have hcom : s.log.committing = false := h.not_committing (by rw [hp]; rfl)
  have hnc : ∀ q, ((({ s with log := s.log.leave }.wakeup).goto p .user).pc q).inCommit ≠ true := by
    intro q hq
    by_cases hqp : q = p
    · subst hqp; simp [State.goto, Pc.inCommit] at hq
    · rw [hpc q hqp, inCommit_wake] at hq
      rw [h.committer q hq] at hcom
      cases hcom
  refine ⟨?_, ?_, fun q hq => absurd hq (hnc q), fun q _ hq _ => absurd hq (hnc q), ?_, h.noPanic⟩
  · have hcount := openOps_update (fun q => (s.pc q).wake) p .user
    rw [openOps_wake, inOp_wake, hp] at hcount
    simp only [Pc.inOp, Bool.false_eq_true, if_false, if_true] at hcount
    show s.log.outstanding - 1 =
      ((openOps (update (fun q => (s.pc q).wake) p .user) : ℕ) : ℤ)
    rw [h.count]
    omega
  · intro hc
    have hc' : s.log.committing = true := hc
    rw [hcom] at hc'
    cases hc'
  · intro q hq
    by_cases hqp : q = p
    · subst hqp; simp [State.goto] at hq
    · rw [hpc q hqp] at hq
      exact absurd hq (wake_ne_asleep _)

/-- Inside `commit()` the reset of `lh.n` happens while `committing` is set. -/
theorem Inv.commit {s : State P} (h : Inv s) {p : P} (hp : s.pc p = .commit) :
    Inv { s.goto p .committed with log := { s.log with block := [] }, group := ∅ } := by
  have hg : Inv (s.goto p .committed) := h.goto (by rw [hp]; rfl) (by rw [hp]; rfl) (by simp)
  have hcom : s.log.committing = true := h.committer p (by rw [hp]; rfl)
  refine ⟨hg.count, hg.quiet, hg.committer, hg.unique, ?_, hg.noPanic⟩
  intro q _
  rw [Log.mustWait_iff]
  exact .inl hcom

/-- The end of the commit clears `committing` and wakes every sleeper. -/
theorem Inv.finish {s : State P} (h : Inv s) {p : P} (hp : s.pc p = .committed) :
    Inv (({ s with log := { s.log with committing := false } }.wakeup).goto p .user) := by
  have hcom : s.log.committing = true := h.committer p (by rw [hp]; rfl)
  have hpc : ∀ q, q ≠ p →
      (({ s with log := { s.log with committing := false } }.wakeup).goto p .user).pc q =
        (s.pc q).wake :=
    fun q hq => goto_pc_of_ne _ .user hq
  have hnc : ∀ q, ((({ s with log := { s.log with committing := false } }.wakeup).goto
      p .user).pc q).inCommit ≠ true := by
    intro q hq
    by_cases hqp : q = p
    · subst hqp; simp [State.goto, Pc.inCommit] at hq
    · rw [hpc q hqp, inCommit_wake] at hq
      exact hqp (h.unique q p hq (by rw [hp]; rfl))
  refine ⟨?_, ?_, fun q hq => absurd hq (hnc q), fun q _ hq _ => absurd hq (hnc q), ?_, h.noPanic⟩
  · have hcount := openOps_update (fun q => (s.pc q).wake) p .user
    rw [openOps_wake, inOp_wake, hp] at hcount
    simp only [Pc.inOp, Bool.false_eq_true, if_false] at hcount
    show s.log.outstanding =
      ((openOps (update (fun q => (s.pc q).wake) p .user) : ℕ) : ℤ)
    rw [h.count]
    omega
  · intro hc
    cases hc
  · intro q hq
    by_cases hqp : q = p
    · subst hqp; simp [State.goto] at hq
    · rw [hpc q hqp] at hq
      exact absurd hq (wake_ne_asleep _)

omit [DecidableEq P] in
theorem inv_init (start size : ℕ) : Inv (init P start size) := by
  refine ⟨?_, ?_, ?_, ?_, ?_, by simp [init]⟩
  · simp [init, Log.fresh, openOps, Pc.inOp]
  · intro hc; cases hc
  · intro p hp; cases hp
  · intro p q hp; cases hp
  · intro p hp; cases hp

theorem inv_step {s s' : State P} {a : Act P} (h : Inv s) (hs : step s a = some s') : Inv s' := by
  cases a with
  | beginOp p =>
    obtain ⟨-, hp, rfl⟩ := step_beginOp hs
    exact h.goto (by rw [hp]; rfl) (by rw [hp]; rfl) (by simp)
  | tryEnter p =>
    obtain ⟨-, hp, ⟨hw, rfl⟩ | ⟨hw, rfl⟩⟩ := step_tryEnter hs
    · exact h.goto (by rw [hp]; rfl) (by rw [hp]; rfl) (fun _ => hw)
    · exact h.enter hp hw
  | logWrite p b =>
    obtain ⟨-, hp, ⟨-, rfl⟩ | ⟨-, -, rfl⟩ | ⟨-, -, rfl⟩⟩ := step_logWrite hs
    · exact h.fail (by decide)
    · exact h.fail (by decide)
    · have hg : Inv (s.goto p (.logging b)) :=
        h.goto (by rw [hp]; rfl) (by rw [hp]; rfl) (by simp)
      exact ⟨hg.count, hg.quiet, hg.committer, hg.unique, hg.asleep, hg.noPanic⟩
  | record p =>
    obtain ⟨-, b, hp, ⟨lg, hlg, rfl⟩ | ⟨-, rfl⟩⟩ := step_record hs
    · exact h.record hp hlg
    · exact h.fail (by decide)
  | endOp p =>
    obtain ⟨-, hp, ⟨hc, rfl⟩ | ⟨-, hz, rfl⟩ | ⟨-, -, rfl⟩⟩ := step_endOp hs
    · rw [h.not_committing (p := p) (by rw [hp]; rfl)] at hc
      cases hc
    · exact h.startCommit hp hz
    · exact h.leave hp
  | commit p =>
    obtain ⟨-, hp, rfl⟩ := step_commit hs
    exact h.commit hp
  | finish p =>
    obtain ⟨-, hp, rfl⟩ := step_finish hs
    exact h.finish hp
  | kill p =>
    obtain ⟨-, hp, rfl⟩ := step_kill hs
    exact h.goto (by rw [hp]; rfl) (by rw [hp]; rfl) (by simp)

/-- The invariant holds in every state of every run. -/
theorem inv_reach {start size : ℕ} {s : State P}
    (h : Reach step anyStep (init P start size) s) : Inv s :=
  h.invariant (inv_init start size) fun _ _ _ hi _ hs => inv_step hi hs

/-- **Log protocol and absence of lost wake-ups.**  In every state any
interleaving reaches: a running commit means that no operation is outstanding,
so the panic `log.committing` of `end_op` is never raised and no process is
inside an operation, `log_write` included; and a process asleep in `begin_op` is
there because a commit runs or because its reservation does not fit *now*. -/
theorem log_protocol {start size : ℕ} {s : State P}
    (h : Reach step anyStep (init P start size) s) :
    (s.log.committing = true → s.log.outstanding = 0) ∧
    s.panic ≠ some "log.committing" ∧
    (s.log.committing = true → ∀ p b, s.pc p ≠ .op ∧ s.pc p ≠ .logging b) ∧
    ∀ p, s.pc p = .asleep →
      s.log.committing = true ∨
        (LOGSIZE : ℤ) < s.log.n + (s.log.outstanding + 1) * MAXOPBLOCKS := by
  have hi := inv_reach h
  refine ⟨?_, hi.noPanic, ?_, ?_⟩
  · intro hc
    rw [hi.count, openOps_eq_zero.2 (hi.quiet hc)]
    rfl
  · intro hc p b
    have hp := hi.quiet hc p
    constructor
    · intro heq; rw [heq] at hp; cases hp
    · intro heq; rw [heq] at hp; cases hp
  · intro p hp
    exact (Log.mustWait_iff _).1 (hi.asleep p hp)

/-- A run in which the second process falls asleep behind the commit of the first. -/
def sleeperRun {P : Type} (p q : P) : List (Act P) :=
  [.beginOp p, .tryEnter p, .logWrite p 40, .record p, .endOp p, .beginOp q, .tryEnter q]

theorem log_protocol_sleeper : ∃ s : State (Fin 2),
    Reach step anyStep (init (Fin 2) 2 LOGSIZE) s ∧ s.pc 1 = .asleep ∧
      (s.log.committing = true ∨
        (LOGSIZE : ℤ) < s.log.n + (s.log.outstanding + 1) * MAXOPBLOCKS) := by
  obtain ⟨s, hs, hp⟩ : ∃ s, exec step (fun _ _ => true) (init (Fin 2) 2 LOGSIZE) (sleeperRun 0 1) =
      some s ∧ s.pc 1 = .asleep := ⟨_, rfl, rfl⟩
  have hr : Reach step anyStep (init (Fin 2) 2 LOGSIZE) s :=
    reach_of_exec (fun _ _ _ => trivial) .init hs
  exact ⟨s, hr, hp, (log_protocol hr).2.2.2 1 hp⟩

end Protocol

/-! ## The space reserved in the log -/

section Space

/-- The discipline of the file-system calls: between its `begin_op` and its
`end_op` a process passes at most `MAXOPBLOCKS` distinct blocks to `log_write`. -/
def withinBudget (s : State P) : Act P → Bool
  | .logWrite p b => decide ((insert b (s.passed p)).card ≤ MAXOPBLOCKS)
  | _ => true

/-- Room is left when `log_write` is called: fewer than `nlog - 1` distinct
blocks have been passed to it since the last commit. -/
def roomLeft (s : State P) : Act P → Prop
  | .logWrite _ _ => s.group.card < s.log.size - 1
  | _ => True

/-- What the log reservation is meant to guarantee in a state. -/
def SpaceOk (s : State P) : Prop :=
  s.panic ≠ some "too big a transaction" ∧ s.log.n ≤ s.log.size - 1

/-- Processes `0`, `1` and `2` enter together, then log ten blocks each; the run
ends at the thirtieth call of `log_write`. -/
def fillingRun : List (Act (Fin 3)) :=
  ([0, 1, 2].flatMap fun p => [.beginOp p, .tryEnter p]) ++
    ([0, 1, 2].flatMap fun p => (List.range MAXOPBLOCKS).flatMap fun i =>
      [.logWrite p (100 + MAXOPBLOCKS * p.val + i), .record p]).dropLast

/-- **The reservation is one block short.**  With the `nlog = LOGSIZE` that `mkfs`
writes, three operations of ten blocks each are all admitted, and the last
`log_write` of the thirty panics. -/
theorem too_big_reachable : ¬ ∀ s : State (Fin 3),
    Reach step (fun s a => withinBudget s a = true) (init (Fin 3) 2 LOGSIZE) s → SpaceOk s := by
  intro hall
  have hrun : (exec step withinBudget (init (Fin 3) 2 LOGSIZE) fillingRun).map State.panic =
      some (some "too big a transaction") := by decide +kernel
  obtain ⟨s, hs, hp⟩ := Option.map_eq_some_iff.1 hrun
  exact (hall s (reach_of_exec (fun _ _ h => h) .init hs)).1 hp

/-- What ties the log to the arguments passed since the last commit. -/
structure Space (s : State P) : Prop where
  /-- Absorption: no block is logged twice. -/
  nodup : s.log.block.Nodup
  /-- Only blocks passed since the last commit are logged. -/
  logged : ∀ x ∈ s.log.block, x ∈ s.group
  /-- A call past its checks has been counted. -/
  pending : ∀ p b, s.pc p = .logging b → b ∈ s.group
  /-- The blocks passed since the last commit fit in the log area. -/
  fits : s.group.card ≤ s.log.size - 1
  /-- The header has an entry for every block of the log area. -/
  header : s.log.size ≤ LOGSIZE
  ok : s.panic ≠ some "too big a transaction"

omit [DecidableEq P] in
/-- The logged blocks are distinct and all were passed, so they fit. -/
theorem Space.n_le {s : State P} (h : Space s) : s.log.n ≤ s.group.card := by
  have hsub : s.log.block.toFinset ⊆ s.group := by
    intro x hx
    exact h.logged x (List.mem_toFinset.1 hx)
  calc s.log.n = s.log.block.toFinset.card := (List.toFinset_card_of_nodup h.nodup).symm
    _ ≤ s.group.card := Finset.card_le_card hsub

/-- A step that neither logs nor commits keeps the space facts. -/
theorem Space.goto {s : State P} (h : Space s) {p : P} {c : Pc}
    (hc : ∀ b, c = .logging b → b ∈ s.group) : Space (s.goto p c) := by
  refine ⟨h.nodup, h.logged, ?_, h.fits, h.header, h.ok⟩
  intro q b hq
  by_cases hqp : q = p
  · subst hqp
    exact hc b (by simpa using hq)
  · rw [goto_pc_of_ne s c hqp] at hq
    exact h.pending q b hq

omit [DecidableEq P] in
theorem Space.wakeup {s : State P} (h : Space s) : Space s.wakeup := by
  refine ⟨h.nodup, h.logged, ?_, h.fits, h.header, h.ok⟩
  intro q b hq
  refine h.pending q b ?_
  cases hpc : s.pc q <;> simp_all [State.wakeup, Pc.wake]

/-- Every step taken with room left keeps the space facts.  The protocol invariant
is what rules out a call of `log_write` pending across a commit. -/
theorem space_step [Fintype P] {s s' : State P} {a : Act P} (hi : Inv s) (h : Space s)
    (hok : roomLeft s a) (hs : step s a = some s') : Space s' := by
  cases a with
  | beginOp p =>
    obtain ⟨-, -, rfl⟩ := step_beginOp hs
    exact h.goto (by simp)
  | tryEnter p =>
    obtain ⟨-, -, ⟨-, rfl⟩ | ⟨-, rfl⟩⟩ := step_tryEnter hs
    · exact h.goto (by simp)
    · have hg : Space (s.goto p .op) := h.goto (by simp)
      exact ⟨hg.nodup, hg.logged, hg.pending, hg.fits, hg.header, hg.ok⟩
  | logWrite p b =>
    have hroom : s.group.card < s.log.size - 1 := hok
    obtain ⟨-, -, ⟨hbig, rfl⟩ | ⟨-, -, rfl⟩ | ⟨-, -, rfl⟩⟩ := step_logWrite hs
    · -- the check compares `lh.n`, which the passed blocks bound, with `nlog - 1`
      have hn := h.n_le
      have hhdr := h.header
      rw [Log.tooBig_iff] at hbig
      omega
    · exact ⟨h.nodup, h.logged, h.pending, h.fits, h.header, by simp [State.fail]⟩
    · refine ⟨h.nodup, ?_, ?_, ?_, h.header, h.ok⟩
      · intro x hx
        exact Finset.mem_insert_of_mem (h.logged x hx)
      · intro q c hq
        by_cases hqp : q = p
        · subst hqp
          have hbc : Pc.logging b = .logging c := by simpa [State.goto] using hq
          rw [Pc.logging.injEq] at hbc
          exact hbc ▸ Finset.mem_insert_self b s.group
        · have hq' : s.pc q = .logging c := by
            rw [← goto_pc_of_ne s (.logging b) hqp]
            exact hq
          exact Finset.mem_insert_of_mem (h.pending q c hq')
      · have hins := Finset.card_insert_le b s.group
        show (insert b s.group).card ≤ s.log.size - 1
        omega
  | record p =>
    obtain ⟨-, b, hp, ⟨lg, hlg, rfl⟩ | ⟨-, rfl⟩⟩ := step_record hs
    · have hg : Space (s.goto p .op) := h.goto (by simp)
      obtain ⟨-, hsize, -, -⟩ := Log.record_fields hlg
      refine ⟨Log.nodup_record h.nodup hlg, ?_, hg.pending, ?_, ?_, hg.ok⟩
      · intro x hx
        rcases (Log.mem_record hlg).1 hx with rfl | hx'
        · exact h.pending p x hp
        · exact h.logged x hx'
      · show s.group.card ≤ lg.size - 1
        rw [hsize]
        exact h.fits
      · show lg.size ≤ LOGSIZE
        rw [hsize]
        exact h.header
    · exact ⟨h.nodup, h.logged, h.pending, h.fits, h.header, by simp [State.fail]⟩
  | endOp p =>
    obtain ⟨-, -, ⟨-, rfl⟩ | ⟨-, -, rfl⟩ | ⟨-, -, rfl⟩⟩ := step_endOp hs
    · exact ⟨h.nodup, h.logged, h.pending, h.fits, h.header, by simp [State.fail]⟩
    · have hg : Space (s.goto p .commit) := h.goto (by simp)
      exact ⟨hg.nodup, hg.logged, hg.pending, hg.fits, hg.header, hg.ok⟩
    · have hl : Space ({ s with log := s.log.leave } : State P) :=
        ⟨h.nodup, h.logged, h.pending, h.fits, h.header, h.ok⟩
      exact hl.wakeup.goto (by simp)
  | commit p =>
    obtain ⟨-, hp, rfl⟩ := step_commit hs
    have hcom : s.log.committing = true := hi.committer p (by rw [hp]; rfl)
    refine ⟨List.nodup_nil, by simp, ?_, by simp, h.header, h.ok⟩
    intro q b hq
    exfalso
    by_cases hqp : q = p
    · subst hqp; simp [State.goto] at hq
    · have hq' : s.pc q = .logging b := by
        rw [← goto_pc_of_ne s .committed hqp]
        exact hq
      have hop := hi.quiet hcom q
      rw [hq'] at hop
      cases hop
  | finish p =>
    obtain ⟨-, -, rfl⟩ := step_finish hs
    have hl : Space ({ s with log := { s.log with committing := false } } : State P) :=
      ⟨h.nodup, h.logged, h.pending, h.fits, h.header, h.ok⟩
    exact hl.wakeup.goto (by simp)
  | kill p =>
    obtain ⟨-, -, rfl⟩ := step_kill hs
    exact h.goto (by simp)

/-- **The log has room for what is passed to it.**  In every run in which each
`log_write` is made while fewer than `nlog - 1` distinct blocks have been passed
since the last commit, no call panics with `too big a transaction` and `lh.n`
stays within the `nlog - 1` data blocks of the log. -/
theorem log_space_of_room [Fintype P] {start : ℕ} {s : State P}
    (h : Reach step roomLeft (init P start LOGSIZE) s) : SpaceOk s := by
  have hboth : Inv s ∧ Space s := by
    refine h.invariant (I := fun s => Inv s ∧ Space s) ⟨inv_init _ _, ?_⟩ ?_
    · exact ⟨List.nodup_nil, by simp [init, Log.fresh], by simp [init], by simp [init],
        by simp [init, Log.fresh], by simp [init]⟩
    · rintro s a s' ⟨hi, hsp⟩ hok hs
      exact ⟨inv_step hi hs, space_step hi hsp hok hs⟩
  have hn := hboth.2.n_le
  have hf := hboth.2.fits
  exact ⟨hboth.2.ok, by omega⟩

/-- Two processes share the log, absorb one block and end with two blocks logged. -/
theorem log_space_of_room_absorbed : ∃ s : State (Fin 2),
    Reach step roomLeft (init (Fin 2) 2 LOGSIZE) s ∧ s.log.n = 2 ∧ SpaceOk s := by
  have hrun : (exec step (fun s a => match a with
      | .logWrite _ _ => decide (s.group.card < s.log.size - 1)
      | _ => true) (init (Fin 2) 2 LOGSIZE)
      [.beginOp 0, .beginOp 1, .tryEnter 0, .tryEnter 1, .logWrite 0 40, .logWrite 1 41,
        .record 1, .record 0, .logWrite 1 40, .record 1]).map (fun s => s.log.n) =
      some 2 := by decide +kernel
  obtain ⟨s, hs, hn⟩ := Option.map_eq_some_iff.1 hrun
  have hr : Reach step roomLeft (init (Fin 2) 2 LOGSIZE) s := by
    refine reach_of_exec ?_ .init hs
    intro s a ha
    cases a <;> simp_all [roomLeft]
  exact ⟨s, hr, hn, log_space_of_room hr⟩

end Space

end Xv6.Fs.LogProtocol
