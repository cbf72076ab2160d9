import Xv6.Lib.Monitor

/-!
# Sleep locks

`acquiresleep`, `releasesleep` and `holdingsleep` of `crates/sync/src/sleeplock.rs`, as
sections under the inner spinlock.  A process is inside from the section in which its
`acquiresleep` returns to the one in which its `releasesleep` does; the machine records this from
the calls, and no section reads or writes it.

* `Watched` — the lock, and who is inside.
* `sleeplock_excludes` — one process inside at most, the fields name it, and nobody sleeps
  on a lock that is free.
-/

namespace Xv6.Proc

open Lib Lib.Monitor

/-- `struct sleeplock`. -/
structure SleepLock where
  /-- The lock is taken. -/
  locked : ℕ
  /-- The pid of its holder. -/
  pid : ℤ

/-- A call on a sleep lock. -/
inductive LockCall where
  /-- `acquiresleep`. -/
  | acquiresleep
  /-- `releasesleep`. -/
  | releasesleep
  /-- `holdingsleep`. -/
  | holdingsleep

namespace SleepLock

variable {P : Type} [DecidableEq P]

/-- `initsleeplock`. -/
def initsleeplock : SleepLock := ⟨0, 0⟩

/-- `acquiresleep`, from the point where it has the inner lock; the channel is the lock's
own address. -/
def acquiresleep (pid : ℤ) (lk : SleepLock) : Outcome SleepLock Unit LockCall ℤ :=
  if lk.locked ≠ 0 then ⟨lk, [], .sleep () .acquiresleep⟩ else ⟨⟨1, pid⟩, [], .leave 0⟩

/-- `releasesleep`. -/
def releasesleep : Outcome SleepLock Unit LockCall ℤ := ⟨⟨0, 0⟩, [()], .leave 0⟩

/-- `holdingsleep`: the pid is not looked at. -/
def holdingsleep (lk : SleepLock) : Outcome SleepLock Unit LockCall ℤ :=
  ⟨lk, [], .leave lk.locked⟩

/-- The section of a call, by the process with this pid. -/
def called (pid : ℤ) (lk : SleepLock) : LockCall → Outcome SleepLock Unit LockCall ℤ
  | .acquiresleep => acquiresleep pid lk
  | .releasesleep => releasesleep
  | .holdingsleep => holdingsleep lk

/-- A lock, and who has acquired it and not yet released it. -/
structure Watched (P : Type) extends SleepLock where
  inside : P → Bool

/-- Nobody is inside a new lock. -/
def Watched.start : Watched P := ⟨initsleeplock, fun _ => false⟩

/-- Who is inside after a section: a process is from the return of `acquiresleep` on, until that of
`releasesleep`. -/
def record (inside : P → Bool) (p : P) : LockCall → Turn Unit LockCall ℤ → P → Bool
  | .acquiresleep, .leave _ => Function.update inside p true
  | .releasesleep, .leave _ => Function.update inside p false
  | _, _ => inside

/-- The calls on a sleep lock; a process that is killed in its sleep looks again. -/
def text (pid : P → ℤ) : Text P (Watched P) Unit LockCall ℤ where
  section_ p k w :=
    let o := called (pid p) w.toSleepLock k
    ⟨⟨o.shared, record w.inside p k o.turn⟩, o.wakes, o.turn⟩
  rouse _ w := w

/-- Only the holder calls `releasesleep`. -/
def ByHolder (p : P) (k : LockCall) (w : Watched P) : Prop := k = .releasesleep → w.inside p = true

/-- The lock is free and nobody inside, or one process has it and the fields say so. -/
inductive Held (pid : P → ℤ) (w : Watched P) : Prop
  /-- Nobody has it. -/
  | free (hlocked : w.locked = 0) (hpid : w.pid = 0) (hinside : ∀ p, w.inside p = false)
  /-- One process has it. -/
  | held (p : P) (hlocked : w.locked = 1) (hpid : w.pid = pid p)
      (hinside : ∀ q, w.inside q = true ↔ q = p)

variable {pid : P → ℤ} {w : Watched P} {p : P}

/-- While the lock is taken `acquiresleep` goes to sleep. -/
theorem section_taken (hl : w.locked ≠ 0) :
    (text pid).section_ p .acquiresleep w = ⟨w, [], .sleep () .acquiresleep⟩ := by
  have hcall : acquiresleep (pid p) w.toSleepLock = ⟨w.toSleepLock, [], .sleep () .acquiresleep⟩ :=
    if_pos hl
  simp only [text, called, hcall, record]

theorem section_free (hl : w.locked = 0) : (text pid).section_ p .acquiresleep w =
    ⟨⟨⟨1, pid p⟩, Function.update w.inside p true⟩, [], .leave 0⟩ := by
  have hcall : acquiresleep (pid p) w.toSleepLock = ⟨⟨1, pid p⟩, [], .leave 0⟩ :=
    if_neg (not_not.2 hl)
  simp only [text, called, hcall, record]

theorem Held.section (h : Held pid w) {k : LockCall} (hk : ByHolder p k w) :
    Held pid ((text pid).section_ p k w).shared := by
  cases k with
  | acquiresleep =>
    cases h with
    | free hlocked hpid hinside =>
      rw [section_free hlocked]
      refine .held p rfl rfl fun q => ?_
      by_cases hq : q = p
      · simp [hq]
      · simp [hq, hinside q]
    | held q hlocked hpid hinside =>
      rw [section_taken (by omega)]
      exact .held q hlocked hpid hinside
  | releasesleep =>
    cases h with
    | free hlocked hpid hinside =>
      have hin := hk rfl
      rw [hinside p] at hin
      cases hin
    | held q hlocked hpid hinside =>
      have hp : p = q := (hinside p).1 (hk rfl)
      refine .free rfl rfl fun r => ?_
      by_cases hr : r = p
      · exact hr ▸ Function.update_self ..
      · have hout : ¬ w.inside r = true := fun hin => hr ((hinside r).1 hin |>.trans hp.symm)
        exact (Function.update_of_ne hr ..).trans (Bool.eq_false_iff.2 hout)
  | holdingsleep => exact h

/-- Whoever sleeps on the lock sleeps while it is taken. -/
theorem guarded_text : Guarded (text pid) ByHolder fun _ w => w.locked ≠ 0 where
  keep p k w c hk hl := by
    cases k with
    | acquiresleep =>
      rw [section_taken hl]
      exact .inr hl
    | releasesleep => exact .inl (List.mem_singleton_self _)
    | holdingsleep => exact .inr hl
  sleep p k w c k' hk ht := by
    cases k with
    | acquiresleep =>
      by_cases hl : w.locked = 0
      · rw [section_free hl] at ht
        cases ht
      · rw [section_taken hl]
        exact hl
    | releasesleep => cases ht
    | holdingsleep => cases ht
  rouse _ _ _ hl := hl

end SleepLock

section Runs

variable {P : Type} [DecidableEq P] {pid : P → ℤ}
  {s₀ s : State P (SleepLock.Watched P) Unit LockCall}

/-- **Sleep locks exclude and strand nobody.**  In every run in which only the holder
releases, one process at most is inside; the lock is taken, under the pid of the process
inside, exactly while there is one; and whoever sleeps on the lock sleeps while it is
taken. -/
theorem sleeplock_excludes (hinit : s₀.shared = SleepLock.Watched.start)
    (hout : ∀ p, s₀.status p = .out)
    (h : Reach (step (SleepLock.text pid)) (Disciplined SleepLock.ByHolder) s₀ s) :
    (∀ p q, s.shared.inside p = true → s.shared.inside q = true → p = q) ∧
      (∀ p, s.shared.inside p = true → s.shared.locked = 1 ∧ s.shared.pid = pid p) ∧
      (s.shared.locked ≠ 0 → ∃ p, s.shared.inside p = true) ∧
      ∀ p c k, s.status p = .asleep c k → s.shared.locked = 1 := by
  have hheld : SleepLock.Held pid s.shared := by
    refine shared_invariant (I := SleepLock.Held pid) h ?_ (fun p k lk hI hk => hI.section hk)
      fun p lk hI => hI
    rw [hinit]
    exact .free rfl rfl fun _ => rfl
  have hasleep := fun p c k (hp : s.status p = .asleep c k) =>
    asleep_holds SleepLock.guarded_text h hout hp
  cases hheld with
  | free hlocked hpid hinside =>
    refine ⟨fun p q hp => ?_, fun p hp => ?_, fun hl => absurd hlocked hl,
      fun p c k hp => absurd hlocked (hasleep p c k hp)⟩
    · rw [hinside p] at hp
      cases hp
    · rw [hinside p] at hp
      cases hp
  | held r hlocked hpid hinside =>
    refine ⟨fun p q hp hq => ((hinside p).1 hp).trans ((hinside q).1 hq).symm, fun p hp => ?_,
      fun _ => ⟨r, (hinside r).2 rfl⟩, fun _ _ _ _ => hlocked⟩
    rw [(hinside p).1 hp]
    exact ⟨hlocked, hpid⟩

end Runs

/-- A new lock and nobody at it. -/
def freshLock : State ℕ (SleepLock.Watched ℕ) Unit LockCall where
  shared := SleepLock.Watched.start
  status _ := .out

/-- One process inside, another asleep. -/
theorem sleeplock_excludes_two : ∃ s : State ℕ (SleepLock.Watched ℕ) Unit LockCall,
    s.shared.inside 1 = true ∧ s.status 2 = .asleep () .acquiresleep ∧ s.shared.locked = 1 := by
  have h : Reach (step (SleepLock.text fun p : ℕ => (p : ℤ))) (Disciplined SleepLock.ByHolder)
      freshLock _ :=
    .step (a := .enter 2 .acquiresleep) (.step (a := .enter 1 .acquiresleep) .init
      (fun hk => by cases hk) rfl) (fun hk => by cases hk) rfl
  exact ⟨_, rfl, rfl, (sleeplock_excludes rfl (fun _ => rfl) h).2.2.2 2 () .acquiresleep rfl⟩

end Xv6.Proc
