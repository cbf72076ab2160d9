import Xv6.Proc.Table

/-!
# Spinlocks and `sched`

`pushcli`, `popcli`, `acquire`, `release` and `holding` of `kernel/src/glue.rs`, and the
checks that `sched` makes in `crates/proc/src/proc.rs`.  The nesting depth is kept in the
static `CLI_DEPTH`; `sched` reads the field `ncli` of the CPU, which nothing writes.

* `Cpu.Sound` — `CLI_DEPTH` is the number of unmatched calls.
* `sched_passes_iff` — the checks of `sched` pass exactly if the CPU started with `ncli = 1`.
-/

namespace Xv6.Proc

open Lib List

variable {L : Type} [DecidableEq L]

/-- A CPU, with the locks `L` of the kernel. -/
structure Cpu (L : Type) where
  /-- `Cpu.ncli`. -/
  ncli : ℤ
  /-- `CLI_DEPTH`. -/
  cliDepth : ℤ
  /-- `INT_ENABLED`. -/
  intEnabled : Bool
  /-- The interrupt flag in `eflags`. -/
  interrupts : Bool
  /-- `locked` of each spinlock. -/
  locked : L → Bool
  /-- The calls that are not matched yet: `acquire` with its lock, or `pushcli`. -/
  unmatched : List (Option L)

namespace Cpu

/-- `pushcli`. -/
def pushcli (s : Cpu L) : Cpu L :=
  { s with
    interrupts := false
    intEnabled := if s.cliDepth = 0 then s.interrupts else s.intEnabled
    cliDepth := s.cliDepth + 1 }

/-- `popcli`. -/
def popcli (s : Cpu L) : Cpu L :=
  { s with
    cliDepth := s.cliDepth - 1
    interrupts := if s.cliDepth - 1 = 0 ∧ s.intEnabled then true else s.interrupts }

/-- `acquire`. -/
def acquire (lk : L) (s : Cpu L) : Cpu L :=
  { s.pushcli with locked := Function.update s.locked lk true }

/-- `release`. -/
def release (lk : L) (s : Cpu L) : Cpu L :=
  popcli { s with locked := Function.update s.locked lk false }

/-- `holding`. -/
def holding (lk : L) (s : Cpu L) : Bool := s.locked lk

end Cpu

/-- What a CPU does. -/
inductive CpuOp (L : Type) where
  /-- `acquire`. -/
  | acquire (lk : L)
  /-- `release`. -/
  | release (lk : L)
  /-- `pushcli`. -/
  | pushcli
  /-- `popcli`. -/
  | popcli
  /-- The interrupt flag is set or cleared by other code. -/
  | flag (b : Bool)

/-- One operation, with the account of what is unmatched. -/
def cpuStep (s : Cpu L) : CpuOp L → Cpu L
  | .acquire lk => { s.acquire lk with unmatched := some lk :: s.unmatched }
  | .release lk => { s.release lk with unmatched := s.unmatched.erase (some lk) }
  | .pushcli => { s.pushcli with unmatched := none :: s.unmatched }
  | .popcli => { s.popcli with unmatched := s.unmatched.erase none }
  | .flag b => { s with interrupts := b }

/-- Calls are matched, and the interrupt flag is left alone in between. -/
def Nested (s : Cpu L) : CpuOp L → Prop
  | .release lk => some lk ∈ s.unmatched
  | .popcli => none ∈ s.unmatched
  | .flag _ => s.unmatched = []
  | _ => True

/-- The callers of `sched`. -/
inductive SchedCaller (L : Type) where
  /-- `yield_proc`. -/
  | yieldProc
  /-- `sleep_proc` with a lock. -/
  | sleepProc (lk : L)
  /-- `exit`. -/
  | exit

/-- What a caller does with locks before it calls `sched`. -/
def SchedCaller.prepare (ptable : L) : SchedCaller L → List (CpuOp L)
  | .yieldProc => [.acquire ptable]
  | .sleepProc lk => if lk = ptable then [] else [.acquire ptable, .release lk]
  | .exit => [.acquire ptable]

/-- The state it gives to the process. -/
def SchedCaller.state : SchedCaller L → Procstate
  | .yieldProc => .RUNNABLE
  | .sleepProc _ => .SLEEPING
  | .exit => .ZOMBIE

/-- A lock that `sleep_proc` is given is held. -/
def SchedCaller.Legal (s : Cpu L) : SchedCaller L → Prop
  | .sleepProc lk => some lk ∈ s.unmatched
  | _ => True

/-- The CPU when `sched` is called. -/
def SchedCaller.enter (ptable : L) (c : SchedCaller L) (s : Cpu L) : Cpu L :=
  (c.prepare ptable).foldl cpuStep s

/-- The checks of `sched`. -/
def sched (ptable : L) (s : Cpu L) (state : Procstate) : Except String Unit :=
  if s.holding ptable = false then throw "sched ptable.lock"
  else if s.ncli ≠ 1 then throw "sched locks"
  else if state = .RUNNING then throw "sched running"
  else if s.interrupts then throw "sched interruptible"
  else pure ()

namespace Cpu

/-- A CPU before its first call. -/
structure Boot (s : Cpu L) : Prop where
  /-- Nothing is nested, -/
  depth : s.cliDepth = 0
  /-- nothing unmatched -/
  unmatched : s.unmatched = []
  /-- and no lock held. -/
  locked : ∀ lk, s.locked lk = false

/-- The depth counts what is unmatched; interrupts are off in between; a lock that is
taken is among the unmatched. -/
structure Sound (s : Cpu L) : Prop where
  depth : s.cliDepth = s.unmatched.length
  off : s.unmatched ≠ [] → s.interrupts = false
  locked : ∀ lk, s.locked lk = true → some lk ∈ s.unmatched

theorem Sound.step {s : Cpu L} (h : s.Sound) (op : CpuOp L) (hop : Nested s op) :
    (cpuStep s op).Sound := by
  -- what `release` and `popcli` share
  have hpop : ∀ {o : Option L}, o ∈ s.unmatched →
      s.cliDepth - 1 = (s.unmatched.erase o).length ∧ (s.unmatched.erase o ≠ [] →
        (if s.cliDepth - 1 = 0 ∧ s.intEnabled then true else s.interrupts) = false) := by
    intro o ho
    have hlen := length_erase_of_mem ho
    have hpos := length_pos_of_mem ho
    have hdepth : s.cliDepth - 1 = (s.unmatched.erase o).length := by
      rw [h.depth, hlen]
      omega
    refine ⟨hdepth, fun hne => ?_⟩
    have hne' := length_pos_of_ne_nil hne
    rw [if_neg fun hc => by omega]
    exact h.off (ne_nil_of_mem ho)
  cases op with
  | acquire lk =>
    refine ⟨?_, fun _ => rfl, fun lk' hl => ?_⟩
    · change s.cliDepth + 1 = ((some lk :: s.unmatched).length : ℤ)
      rw [h.depth, length_cons, Nat.cast_succ]
    · by_cases hlk : lk' = lk
      · exact hlk ▸ mem_cons_self
      · exact mem_cons_of_mem _ (h.locked lk' ((Function.update_of_ne hlk ..).symm.trans hl))
  | release lk =>
    refine ⟨(hpop hop).1, (hpop hop).2, fun lk' hl => ?_⟩
    by_cases hlk : lk' = lk
    · subst hlk
      have hfalse : (cpuStep s (.release lk')).locked lk' = false := Function.update_self ..
      cases hfalse.symm.trans hl
    · have hmem := h.locked lk' ((Function.update_of_ne hlk ..).symm.trans hl)
      exact (mem_erase_of_ne fun he => hlk (Option.some.inj he)).2 hmem
  | pushcli =>
    refine ⟨?_, fun _ => rfl, fun lk hl => mem_cons_of_mem _ (h.locked lk hl)⟩
    change s.cliDepth + 1 = ((none :: s.unmatched).length : ℤ)
    rw [h.depth, length_cons, Nat.cast_succ]
  | popcli =>
    refine ⟨(hpop hop).1, (hpop hop).2, fun lk hl => ?_⟩
    exact (mem_erase_of_ne (Option.some_ne_none lk)).2 (h.locked lk hl)
  | flag b => exact ⟨h.depth, fun hne => absurd hop hne, h.locked⟩

@[simp] theorem ncli_cpuStep (s : Cpu L) (op : CpuOp L) : (cpuStep s op).ncli = s.ncli := by
  cases op <;> rfl

theorem sound_of_reach {s₀ s : Cpu L} (h₀ : s₀.Boot)
    (h : Reach (fun s op => some (cpuStep s op)) Nested s₀ s) : s.Sound ∧ s.ncli = s₀.ncli := by
  have hboot : s₀.Sound := by
    refine ⟨?_, fun hne => absurd h₀.unmatched hne, fun lk hl => ?_⟩
    · rw [h₀.depth, h₀.unmatched]
      rfl
    · rw [h₀.locked lk] at hl
      cases hl
  refine h.invariant (I := fun s => s.Sound ∧ s.ncli = s₀.ncli) ⟨hboot, rfl⟩ ?_
  rintro s op s' ⟨hs, hn⟩ hop hstep
  cases hstep
  exact ⟨hs.step op hop, (ncli_cpuStep s op).trans hn⟩

/-- The locks a caller takes and gives back keep to the nesting. -/
theorem sound_enter {s : Cpu L} (h : s.Sound) (ptable : L) {c : SchedCaller L} (hc : c.Legal s) :
    (c.enter ptable s).Sound ∧ (c.enter ptable s).ncli = s.ncli := by
  cases c with
  | yieldProc => exact ⟨h.step (.acquire ptable) trivial, rfl⟩
  | exit => exact ⟨h.step (.acquire ptable) trivial, rfl⟩
  | sleepProc lk =>
    rw [SchedCaller.enter, SchedCaller.prepare]
    split_ifs
    · exact ⟨h, rfl⟩
    · have hmem : some lk ∈ (cpuStep s (.acquire ptable)).unmatched := mem_cons_of_mem _ hc
      exact ⟨(h.step (.acquire ptable) trivial).step (.release lk) hmem, rfl⟩

end Cpu

/-- **The checks of `sched`.**  In every run of a CPU and for every caller of `sched` that
has `ptable.lock` as the only spinlock, the checks pass if and only if the CPU started with
`ncli = 1`; the counter that does follow the unmatched calls is `CLI_DEPTH`, and `ncli` is
what it was. -/
theorem sched_passes_iff {s₀ s : Cpu L} (h₀ : s₀.Boot)
    (h : Reach (fun s op => some (cpuStep s op)) Nested s₀ s) (ptable : L) (c : SchedCaller L)
    (hc : c.Legal s) (honly : ∀ lk, (c.enter ptable s).locked lk = true ↔ lk = ptable) :
    (sched ptable (c.enter ptable s) c.state = .ok () ↔ s₀.ncli = 1) ∧
      (c.enter ptable s).cliDepth = (c.enter ptable s).unmatched.length ∧
      (c.enter ptable s).ncli = s₀.ncli := by
  obtain ⟨hs, hn⟩ := Cpu.sound_of_reach h₀ h
  obtain ⟨he, hn'⟩ := Cpu.sound_enter hs ptable hc
  have hheld : (c.enter ptable s).holding ptable = true := (honly ptable).2 rfl
  have hoff : (c.enter ptable s).interrupts = false :=
    he.off (ne_nil_of_mem (he.locked ptable hheld))
  have hstate : c.state ≠ .RUNNING := by cases c <;> exact fun he => nomatch he
  refine ⟨?_, he.depth, hn'.trans hn⟩
  rw [sched, if_neg (by rw [hheld]; decide), hn', hn, if_neg hstate, hoff]
  by_cases hone : s₀.ncli = 1
  · rw [if_neg (not_not.2 hone)]
    exact iff_of_true rfl hone
  · rw [if_pos hone]
    exact iff_of_false (fun he => by cases he) hone

/-- A CPU as it starts, with `ncli` set to `n`. -/
def bootCpu (n : ℤ) : Cpu ℕ := ⟨n, 0, false, true, fun _ => false, []⟩

/-- With `ncli` at `1`, `yield_proc` passes. -/
theorem sched_passes_iff_one :
    sched 0 (SchedCaller.yieldProc.enter 0 (bootCpu 1)) .RUNNABLE = .ok () := by
  have hboot : (bootCpu 1).Boot := ⟨rfl, rfl, fun _ => rfl⟩
  refine (sched_passes_iff hboot .init 0 .yieldProc trivial fun lk => ?_).1.2 rfl
  change Function.update (fun _ => false) 0 true lk = true ↔ lk = 0
  by_cases hlk : lk = 0
  · simp [hlk]
  · simp [hlk]

/-- As the CPU starts, with `ncli` at `0`, `yield_proc` panics with one lock held. -/
theorem sched_panics : (SchedCaller.yieldProc.enter 0 (bootCpu 0)).unmatched = [some 0] ∧
    sched 0 (SchedCaller.yieldProc.enter 0 (bootCpu 0)) .RUNNABLE = .error "sched locks" :=
  ⟨rfl, rfl⟩

end Xv6.Proc
