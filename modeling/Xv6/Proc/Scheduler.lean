import Xv6.Proc.Table
import Xv6.Lib.Machine

/-!
# The scheduler

`scheduler` of `crates/proc/src/proc.rs`, one CPU.  It looks at the slots of the process table
one after the other with `ptable.lock` held, so that the table changes only while a process runs
and between two passes, when interrupts are on.  It counts the slots it has passed over since
it last ran a process, and halts after a pass if that was more than `NPROC`.

* `schedule` — one look at a slot, the return of a process, the end of a pass, an interrupt.
* `PassedOver` — the slots that have been passed over are those of processes that cannot run.
* `scheduler_halts_idle` — it halts only if none can.
* `scheduler_bounded_bypass` — a process that can run does so before any other has run twice.
-/

namespace Xv6.Proc

open Lib

/-- Where the scheduler is. -/
inductive SchedPhase where
  /-- In the loop over the table. -/
  | scanning
  /-- In the process, between `swtch` and its return. -/
  | running (p : Slot)
  /-- After `release`, before the test. -/
  | released
  /-- In `hlt`. -/
  | halted
  deriving DecidableEq

/-- The process table and the variables of `scheduler`. -/
structure Scheduler where
  state : Slot → Procstate
  phase : SchedPhase
  /-- `i`. -/
  cursor : ℕ
  skipped : ℕ

/-- What happens next. -/
inductive SchedEvent where
  /-- A look at the slot of the cursor. -/
  | look
  /-- The process gives the CPU back; the table may have changed. -/
  | back (table : Slot → Procstate)
  /-- The end of a pass. -/
  | release
  /-- The test of `skipped`. -/
  | check
  /-- An interrupt, which may wake processes, and ends `hlt`. -/
  | interrupt (table : Slot → Procstate)

namespace Scheduler

/-- A slot is looked at; `skipped += 1` may panic. -/
def lookAt (s : Scheduler) (p : Slot) : Option Scheduler :=
  if s.state p ≠ .RUNNABLE then
    if s.skipped + 1 < 2 ^ 32 then some { s with skipped := s.skipped + 1, cursor := s.cursor + 1 }
      else none
  else some { s with
      skipped := 0, phase := .running p, state := Function.update s.state p .RUNNING }

/-- One event. -/
def schedule (s : Scheduler) : SchedEvent → Option Scheduler
  | .look => if h : s.phase = .scanning ∧ s.cursor < NPROC then s.lookAt ⟨s.cursor, h.2⟩ else none
  | .back table =>
    match s.phase with
    | .running _ => some { s with state := table, phase := .scanning, cursor := s.cursor + 1 }
    | _ => none
  | .release => if s.phase = .scanning ∧ s.cursor = NPROC then some { s with phase := .released }
    else none
  | .check =>
    if s.phase = .released then
      if NPROC < s.skipped then some { s with phase := .halted }
        else some { s with phase := .scanning, cursor := 0 }
    else none
  | .interrupt table =>
    match s.phase with
    | .released => some { s with state := table }
    | .halted => some { s with state := table, phase := .scanning, cursor := 0, skipped := 0 }
    | _ => none

/-- The process that a look at its slot has dispatched. -/
def dispatched : SchedEvent → SchedPhase → List Slot
  | .look, .running p => [p]
  | _, _ => []

/-- When `scheduler` is called. -/
def start (table : Slot → Procstate) : Scheduler := ⟨table, .scanning, 0, 0⟩

end Scheduler

open Scheduler

variable {s s' : Scheduler} {e : SchedEvent} {p k : Slot} {table : Slot → Procstate}

theorem look_cases (h : s.schedule .look = some s') :
    s.phase = .scanning ∧ ∃ hlt : s.cursor < NPROC,
    (s.state ⟨s.cursor, hlt⟩ ≠ .RUNNABLE ∧
      s' = { s with skipped := s.skipped + 1, cursor := s.cursor + 1 }) ∨
    (s.state ⟨s.cursor, hlt⟩ = .RUNNABLE ∧ s' = { s with
      skipped := 0
      phase := .running ⟨s.cursor, hlt⟩
      state := Function.update s.state ⟨s.cursor, hlt⟩ .RUNNING }) := by
  rw [schedule] at h
  split_ifs at h with hscan
  refine ⟨hscan.1, hscan.2, ?_⟩
  rw [lookAt] at h
  split_ifs at h with hrun hfit
  · exact .inl ⟨hrun, (Option.some.inj h).symm⟩
  · exact .inr ⟨not_not.1 hrun, (Option.some.inj h).symm⟩

/-! ## Halting -/

/-- The slots that were passed over since the last dispatch, in this pass, are of processes that
cannot run; `skipped` counts them, and those of the pass before. -/
structure PassedOver (s : Scheduler) : Prop where
  cursor : s.cursor ≤ NPROC
  /-- The process that runs is the one at the cursor. -/
  running : ∀ p, s.phase = .running p → s.cursor = p ∧ s.skipped = 0
  /-- The bound of `skipped`. -/
  bound : s.skipped ≤ NPROC + s.cursor
  idle : s.phase = .scanning → ∀ p : Slot, p < s.cursor → s.cursor ≤ p + s.skipped →
    s.state p ≠ .RUNNABLE
  done : s.phase = .released ∨ s.phase = .halted → s.cursor = NPROC

theorem passedOver_start (table : Slot → Procstate) : PassedOver (start table) where
  cursor := Nat.zero_le _
  running _ h := by cases h
  bound := Nat.zero_le _
  idle _ p hp := absurd hp (Nat.not_lt_zero _)
  done h := by rcases h with h | h <;> cases h

theorem PassedOver.schedule (h : PassedOver s) (hs : s.schedule e = some s') : PassedOver s' := by
  cases e with
  | look =>
    obtain ⟨hphase, hlt, ⟨hidle, rfl⟩ | ⟨-, rfl⟩⟩ := look_cases hs
    · refine ⟨hlt, fun p hp => ?_, ?_, fun _ p hp hle => ?_, fun hp => ?_⟩
      · simp [hphase] at hp
      · have hb := h.bound
        simp only
        omega
      · -- the slot of the cursor, or one before it
        simp only at hp hle
        rcases Nat.lt_succ_iff_lt_or_eq.1 hp with hlow | heq
        · exact h.idle hphase p hlow (by omega)
        · have hslot : p = ⟨s.cursor, hlt⟩ := Fin.ext heq
          rw [hslot]
          exact hidle
      · simp [hphase] at hp
    · refine ⟨h.cursor, fun p hp => ?_, Nat.zero_le _, fun hp => ?_, fun hp => ?_⟩
      · cases hp
        exact ⟨rfl, rfl⟩
      · cases hp
      · rcases hp with hp | hp <;> cases hp
  | back table =>
    cases hphase : s.phase with
    | running p =>
      simp only [Scheduler.schedule, hphase, Option.some.injEq] at hs
      subst hs
      obtain ⟨hcur, hskip⟩ := h.running p hphase
      have hp := p.isLt
      refine ⟨?_, fun q hq => ?_, ?_, fun _ q hq hle => ?_, fun hq => ?_⟩
      · simp only
        omega
      · cases hq
      · simp only [hskip]
        exact Nat.zero_le _
      · simp only [hskip] at hle hq
        omega
      · rcases hq with hq | hq <;> cases hq
    | scanning => simp [Scheduler.schedule, hphase] at hs
    | released => simp [Scheduler.schedule, hphase] at hs
    | halted => simp [Scheduler.schedule, hphase] at hs
  | release =>
    rw [Scheduler.schedule] at hs
    split_ifs at hs with hend
    cases hs
    exact ⟨h.cursor, fun p hp => by (cases hp), h.bound, fun hp => by (cases hp), fun _ => hend.2⟩
  | check =>
    rw [Scheduler.schedule] at hs
    split_ifs at hs with hrel hskip <;> cases hs
    · exact ⟨h.cursor, fun p hp => by (cases hp), h.bound, fun hp => by (cases hp),
        fun _ => h.done (Or.inl hrel)⟩
    · refine ⟨Nat.zero_le _, fun p hp => by (cases hp), by simp only; omega, fun _ p hp => ?_,
        fun hp => ?_⟩
      · exact absurd hp (Nat.not_lt_zero _)
      · rcases hp with hp | hp <;> cases hp
  | interrupt table =>
    cases hphase : s.phase with
    | released =>
      simp only [Scheduler.schedule, hphase, Option.some.injEq] at hs
      subst hs
      exact ⟨h.cursor, fun p hp => by (cases hp), h.bound, fun hp => by (cases hp),
        fun _ => h.done (Or.inl hphase)⟩
    | halted =>
      simp only [Scheduler.schedule, hphase, Option.some.injEq] at hs
      subst hs
      exact passedOver_start table
    | scanning => simp [Scheduler.schedule, hphase] at hs
    | running p => simp [Scheduler.schedule, hphase] at hs

theorem passedOver_of_reach (h : Reach schedule anyStep (start table) s) : PassedOver s :=
  h.invariant (passedOver_start table) fun _ _ _ hp _ hs => hp.schedule hs

/-- **The CPU halts only when there is nothing to run.**  In every run of the scheduler, whatever
the processes and the interrupts do to the table: when a pass has ended and `skipped` will make
the CPU halt, no process can run; and `skipped` never comes near the end of its type, so looking
at a slot never panics. -/
theorem scheduler_halts_idle (h : Reach schedule anyStep (start table) s) :
    (s.phase = .scanning → s.cursor = NPROC → NPROC < s.skipped → ∀ p, s.state p ≠ .RUNNABLE) ∧
      (s.phase = .scanning → s.cursor < NPROC → (s.schedule .look).isSome) ∧
        s.skipped ≤ 2 * NPROC := by
  have hp := passedOver_of_reach h
  refine ⟨fun hphase hcur hskip p => ?_, fun hphase hlt => ?_, ?_⟩
  · have hlt := p.isLt
    exact hp.idle hphase p (by omega) (by omega)
  · have hb := hp.bound
    have hN : NPROC = 64 := rfl
    rw [schedule, dif_pos ⟨hphase, hlt⟩, lookAt]
    split_ifs with hrun hfit
    · rfl
    · omega
    · rfl
  · have hc := hp.cursor
    have hb := hp.bound
    omega

/-- One process is ready. -/
def oneReady (p : Slot) : Procstate := if p.val = 0 then .RUNNABLE else .UNUSED

/-- It runs and exits, and two passes find nothing else. -/
def idling : List SchedEvent :=
  .look :: .back (fun _ => .ZOMBIE) :: (List.replicate 63 .look ++ .release :: .check ::
    List.replicate 64 .look)

/-- The second pass ends with 127 slots skipped, and the CPU halts. -/
theorem scheduler_halts_idle_start : ∃ s s', Reach schedule anyStep (start oneReady) s ∧
    s.skipped = 127 ∧ (∀ p, s.state p ≠ .RUNNABLE) ∧
    exec schedule (fun _ _ => true) s [.release, .check] = some s' ∧ s'.phase = .halted := by
  obtain ⟨s, hs⟩ := Option.isSome_iff_exists.1
    (by decide +kernel : (exec schedule (fun _ _ => true) (start oneReady) idling).isSome = true)
  have hend : (exec schedule (fun _ _ => true) (start oneReady) idling).map (fun s =>
      (s.phase, s.cursor, s.skipped)) = some (.scanning, NPROC, 127) := by decide +kernel
  rw [hs, Option.map_some, Option.some.injEq, Prod.mk.injEq, Prod.mk.injEq] at hend
  obtain ⟨hphase, hcur, hskip⟩ := hend
  have hreach : Reach schedule anyStep (start oneReady) s :=
    reach_of_exec (fun _ _ _ => trivial) .init hs
  have hlt : NPROC < s.skipped := by
    rw [hskip]
    decide
  refine ⟨s, { s with phase := .halted }, hreach, hskip,
    (scheduler_halts_idle hreach).1 hphase hcur hlt, ?_, rfl⟩
  simp [exec, schedule, hphase, hcur, hlt]

/-! ## Waiting to run -/

/-- Nothing takes `RUNNABLE` from a process but the scheduler. -/
def Keeps (k : Slot) (s : Scheduler) : SchedEvent → Prop
  | .back table => s.state k = .RUNNABLE → table k = .RUNNABLE
  | .interrupt table => s.state k = .RUNNABLE → table k = .RUNNABLE
  | _ => True

/-- A run, with the processes it dispatches. -/
inductive Ran (k : Slot) : Scheduler → List SchedEvent → List Slot → Scheduler → Prop
  | nil {s : Scheduler} : Ran k s [] [] s
  | cons {s s' s'' : Scheduler} {e : SchedEvent} {es : List SchedEvent}
    {ps : List Slot} : Keeps k s e →
      s.schedule e = some s' → Ran k s' es ps s'' →
        Ran k s (e :: es) (dispatched e s'.phase ++ ps) s''

/-- The slots looked at. -/
def looks : List SchedEvent → ℕ
  | [] => 0
  | .look :: es => looks es + 1
  | _ :: es => looks es

/-- How many slots come before the one of `k`, from `c` on and around the end of the table. -/
def ahead (k : Slot) (c : ℕ) : ℕ := (k + NPROC - c) % NPROC

/-- The slot to be looked at next. -/
def Scheduler.next (s : Scheduler) : ℕ :=
  match s.phase with
  | .running _ => s.cursor + 1
  | _ => s.cursor

theorem ahead_succ {c : ℕ} (hc : c < NPROC) (hne : c ≠ k) : ahead k (c + 1) + 1 = ahead k c := by
  have hk := k.isLt
  change ((k : ℕ) + 64 - (c + 1)) % 64 + 1 = ((k : ℕ) + 64 - c) % 64
  change c < 64 at hc
  change (k : ℕ) < 64 at hk
  omega

theorem ahead_wraps : ahead k NPROC = ahead k 0 := by
  have hk := k.isLt
  change ((k : ℕ) + 64 - 64) % 64 = ((k : ℕ) + 64 - 0) % 64
  omega

/-- One event: the slots go by one at a time, and the process waits. -/
theorem ahead_schedule (h : PassedOver s) (hk : s.state k = .RUNNABLE) (hkeeps : Keeps k s e)
    (hs : s.schedule e = some s') (hnot : k ∉ dispatched e s'.phase) : s'.state k = .RUNNABLE ∧
      looks [e] + ahead k s'.next = ahead k s.next ∧ ∀ p ∈ dispatched e s'.phase,
        ahead k p = ahead k s.next ∧ e = .look := by
  cases e with
  | look =>
    obtain ⟨hphase, hlt, ⟨hidle, rfl⟩ | ⟨-, rfl⟩⟩ := look_cases hs
    · have hne : s.cursor ≠ k := by
        rintro he
        exact hidle (by rw [← hk]; exact congrArg s.state (Fin.ext he))
      have hnext := ahead_succ hlt hne
      simp only [looks, next, hphase, dispatched]
      exact ⟨hk, by omega, by simp⟩
    · have hne : (⟨s.cursor, hlt⟩ : Slot) ≠ k := by
        rintro he
        exact hnot (by simp [dispatched, he])
      have hnext := ahead_succ (k := k) hlt fun he => hne (Fin.ext he)
      simp only [looks, next, hphase, dispatched]
      exact ⟨by rw [Function.update_of_ne hne.symm]; exact hk, by omega, by simp⟩
  | back table =>
    cases hphase : s.phase with
    | running p =>
      simp only [Scheduler.schedule, hphase, Option.some.injEq] at hs
      subst hs
      simp only [looks, next, hphase, dispatched]
      exact ⟨hkeeps hk, by omega, by simp⟩
    | scanning => simp [Scheduler.schedule, hphase] at hs
    | released => simp [Scheduler.schedule, hphase] at hs
    | halted => simp [Scheduler.schedule, hphase] at hs
  | release =>
    rw [Scheduler.schedule] at hs
    split_ifs at hs with hend
    cases hs
    simp only [looks, next, hend.1, dispatched]
    exact ⟨hk, by omega, by simp⟩
  | check =>
    rw [Scheduler.schedule] at hs
    split_ifs at hs with hrel hskip <;> cases hs
    · simp only [looks, next, hrel, dispatched]
      exact ⟨hk, by omega, by simp⟩
    · have hwraps := ahead_wraps (k := k)
      simp only [looks, next, hrel, dispatched, h.done (Or.inl hrel)]
      exact ⟨hk, by omega, by simp⟩
  | interrupt table =>
    cases hphase : s.phase with
    | released =>
      simp only [Scheduler.schedule, hphase, Option.some.injEq] at hs
      subst hs
      simp only [looks, next, hphase, dispatched]
      exact ⟨hkeeps hk, by omega, by simp⟩
    | halted =>
      simp only [Scheduler.schedule, hphase, Option.some.injEq] at hs
      subst hs
      have hwraps := ahead_wraps (k := k)
      simp only [looks, next, hphase, dispatched, h.done (Or.inr hphase)]
      exact ⟨hkeeps hk, by omega, by simp⟩
    | scanning => simp [Scheduler.schedule, hphase] at hs
    | running p => simp [Scheduler.schedule, hphase] at hs

theorem looks_cons (e : SchedEvent) (es : List SchedEvent) :
    looks (e :: es) = looks [e] + looks es := by
  cases e <;> simp only [looks] <;> omega

/-- A whole run while the process waits: those that are dispatched are nearer and nearer to it. -/
theorem Ran.nearer {es : List SchedEvent} {ps : List Slot} (hrun : Ran k s es ps s')
    (h : PassedOver s) (hk : s.state k = .RUNNABLE) (hnot : k ∉ ps) : s'.state k = .RUNNABLE ∧
      looks es + ahead k s'.next = ahead k s.next ∧ (∀ p ∈ ps, ahead k p ≤ ahead k s.next) ∧
      ps.Pairwise fun p q : Slot => ahead k q < ahead k p := by
  induction hrun with
  | nil => exact ⟨hk, by simp [looks], by simp, List.Pairwise.nil⟩
  | @cons s s₁ s₂ e es ps hkeeps hs hrest ih =>
    rw [List.mem_append, not_or] at hnot
    obtain ⟨hk₁, hnext, hdisp⟩ := ahead_schedule h hk hkeeps hs hnot.1
    obtain ⟨hk₂, hlooks, hle, hpair⟩ := ih (h.schedule hs) hk₁ hnot.2
    refine ⟨hk₂, by rw [looks_cons]; omega, fun p hp => ?_, ?_⟩
    · rcases List.mem_append.1 hp with hp | hp
      · exact (hdisp p hp).1.le
      · exact (hle p hp).trans (by omega)
    · refine List.pairwise_append.2 ⟨?_, hpair, fun p hp q hq => ?_⟩
      · cases e <;> cases s₁.phase <;> simp [dispatched]
      · obtain ⟨hp, rfl⟩ := hdisp p hp
        have hq := hle q hq
        simp only [looks] at hnext
        omega

/-- **Nobody is passed over twice.**  Take any run of the scheduler and a process that is ready to
run and not dispatched in it, whatever the others and the interrupts do meanwhile: it is still
ready, fewer than `NPROC` slots have been looked at, and no other process has been dispatched
twice. -/
theorem scheduler_bounded_bypass {es : List SchedEvent} {ps : List Slot}
    (h : Reach schedule anyStep (start table) s)
    (hk : s.state k = .RUNNABLE) (hrun : Ran k s es ps s') (hnot : k ∉ ps) :
    s'.state k = .RUNNABLE ∧ looks es < NPROC ∧ ps.Nodup := by
  obtain ⟨hk', hlooks, -, hpair⟩ := hrun.nearer (passedOver_of_reach h) hk hnot
  have hlt : ahead k s.next < NPROC := Nat.mod_lt _ (by decide)
  refine ⟨hk', by omega, hpair.imp fun hlt => ?_⟩
  rintro rfl
  exact lt_irrefl _ hlt

/-- Two processes are ready: the first is dispatched, and the second waits. -/
theorem scheduler_bounded_bypass_two :
    ∃ s', Ran ⟨1, by decide⟩ (start fun _ => .RUNNABLE) [.look] [⟨0, by decide⟩] s' ∧
    (s'.state ⟨1, by decide⟩ = .RUNNABLE ∧ looks [.look] < NPROC ∧
      [(⟨0, by decide⟩ : Slot)].Nodup) := by
  obtain ⟨s', hs⟩ : ∃ s', (start fun _ => .RUNNABLE).schedule .look = some s' := ⟨_, rfl⟩
  have hphase : s'.phase = .running ⟨0, by decide⟩ := by
    cases hs
    rfl
  have hrun : Ran ⟨1, by decide⟩ (start fun _ => .RUNNABLE) [.look] [⟨0, by decide⟩] s' := by
    have hcons := Ran.cons (k := ⟨1, by decide⟩) (by trivial) hs .nil
    rw [hphase] at hcons
    exact hcons
  have hreach : Reach schedule anyStep (start fun _ => .RUNNABLE) (start fun _ => .RUNNABLE) :=
    .init
  exact ⟨s', hrun, scheduler_bounded_bypass hreach rfl hrun (by decide)⟩

end Xv6.Proc
