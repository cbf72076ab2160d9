import Xv6.Lib.Machine

/-!
# Monitors

Processes share a state under one lock.  Whoever has the lock runs a section: it changes
the state, wakes the sleepers of some channels, and then leaves, or goes to sleep on a
channel in the same breath as it gives the lock back.  Sleepers that are woken take the
lock again and go on where they were; somebody outside may also rouse a sleeper.

* `step` — the machine, from the text of the sections.
* `asleep_holds` — no wake-up is lost: if every section that ends what a channel waits for
  wakes it, then whoever sleeps there has reason to.
-/

namespace Xv6.Lib.Monitor

variable {P σ χ κ ρ : Type}

/-- Where a process is: not here, about to take the lock with `k` to do, or asleep. -/
inductive Status (χ κ : Type) where
  /-- Not in the monitor. -/
  | out
  /-- Waiting for the lock. -/
  | ready (k : κ)
  /-- Asleep on a channel. -/
  | asleep (c : χ) (k : κ)

/-- How a section ends. -/
inductive Turn (χ κ ρ : Type) where
  /-- The call returns. -/
  | leave (r : ρ)
  /-- The process goes to sleep, with `k` to do when it is woken. -/
  | sleep (c : χ) (k : κ)

/-- What a section does. -/
structure Outcome (σ χ κ ρ : Type) where
  /-- The state it leaves behind. -/
  shared : σ
  /-- The channels it wakes. -/
  wakes : List χ
  /-- How it ends. -/
  turn : Turn χ κ ρ

/-- The text of a monitor: its sections, and what rousing a process does to the state. -/
structure Text (P σ χ κ ρ : Type) where
  /-- The section of a process. -/
  section_ : P → κ → σ → Outcome σ χ κ ρ
  /-- A process is roused from outside. -/
  rouse : P → σ → σ

/-- The shared state and where everybody is. -/
structure State (P σ χ κ : Type) where
  /-- The state under the lock. -/
  shared : σ
  /-- Where each process is. -/
  status : P → Status χ κ

/-- What can happen next. -/
inductive Act (P κ : Type) where
  /-- A process calls. -/
  | enter (p : P) (k : κ)
  /-- A process that was woken goes on. -/
  | resume (p : P)
  /-- A process is roused from outside. -/
  | rouse (p : P)

/-- The sleepers of these channels become ready. -/
def wake [DecidableEq χ] (ws : List χ) : Status χ κ → Status χ κ
  | .asleep c k => if c ∈ ws then .ready k else .asleep c k
  | st => st

/-- Where a section's end leaves its process. -/
def after : Turn χ κ ρ → Status χ κ
  | .leave _ => .out
  | .sleep c k => .asleep c k

/-- Everything a section changes. -/
def State.ran [DecidableEq P] [DecidableEq χ] (s : State P σ χ κ) (p : P)
    (o : Outcome σ χ κ ρ) : State P σ χ κ where
  shared := o.shared
  status := Function.update (fun q => wake o.wakes (s.status q)) p (after o.turn)

/-- One step of the machine. -/
def step [DecidableEq P] [DecidableEq χ] (M : Text P σ χ κ ρ) (s : State P σ χ κ) :
    Act P κ → Option (State P σ χ κ)
  | .enter p k =>
    match s.status p with
    | .out => some (s.ran p (M.section_ p k s.shared))
    | _ => none
  | .resume p =>
    match s.status p with
    | .ready k => some (s.ran p (M.section_ p k s.shared))
    | _ => none
  | .rouse p => some
    { shared := M.rouse p s.shared
      status := Function.update s.status p (match s.status p with
        | .asleep _ k => .ready k
        | st => st) }

/-- The sections of an action keep to a discipline. -/
def Disciplined (ok : P → κ → σ → Prop) (s : State P σ χ κ) : Act P κ → Prop
  | .enter p k => ok p k s.shared
  | .resume p => ∀ k, s.status p = .ready k → ok p k s.shared
  | .rouse _ => True

variable [DecidableEq P] [DecidableEq χ] {M : Text P σ χ κ ρ} {s s' : State P σ χ κ}
  {ok : P → κ → σ → Prop} {a : Act P κ}

/-- What a step can be: a section of one process, or a rousing. -/
theorem step_cases (h : step M s a = some s') (hok : Disciplined ok s a) :
    (∃ p k, ok p k s.shared ∧ s' = s.ran p (M.section_ p k s.shared)) ∨
      ∃ p, s'.shared = M.rouse p s.shared ∧
        ∀ q c k, s'.status q = .asleep c k → s.status q = .asleep c k := by
  cases a with
  | enter p k =>
    rw [step] at h
    split at h
    · exact .inl ⟨p, k, hok, (Option.some.inj h).symm⟩
    · cases h
  | resume p =>
    rw [step] at h
    split at h
    · rename_i k hk
      exact .inl ⟨p, k, hok k hk, (Option.some.inj h).symm⟩
    · cases h
  | rouse p =>
    cases h
    refine .inr ⟨p, rfl, fun q c k hq => ?_⟩
    by_cases hqp : q = p
    · subst hqp
      simp only [Function.update_self] at hq
      split at hq
      · cases hq
      · exact hq
    · simpa only [Function.update_of_ne hqp] using hq

/-- An invariant of the shared state alone. -/
theorem shared_invariant {I : σ → Prop} {s₀ : State P σ χ κ}
    (h : Reach (step M) (Disciplined ok) s₀ s) (h₀ : I s₀.shared)
    (hsec : ∀ p k x, I x → ok p k x → I (M.section_ p k x).shared)
    (hrouse : ∀ p x, I x → I (M.rouse p x)) : I s.shared := by
  refine h.invariant (I := fun s => I s.shared) h₀ fun s a s' hI hok hs => ?_
  rcases step_cases hs hok with ⟨p, k, hk, rfl⟩ | ⟨p, hp, -⟩
  · exact hsec p k s.shared hI hk
  · rw [hp]
    exact hrouse p s.shared hI

/-- What a sleeper of a channel counts on is kept: a section that ends it wakes the channel,
and a section goes to sleep only where it holds. -/
structure Guarded (M : Text P σ χ κ ρ) (ok : P → κ → σ → Prop) (cond : χ → σ → Prop) : Prop where
  /-- It holds on, or the channel is woken. -/
  keep : ∀ p k x c, ok p k x → cond c x → c ∈ (M.section_ p k x).wakes ∨
    cond c (M.section_ p k x).shared
  /-- It holds for whoever goes to sleep. -/
  sleep : ∀ p k x c k', ok p k x → (M.section_ p k x).turn = .sleep c k' →
    cond c (M.section_ p k x).shared
  /-- Rousing does not end it. -/
  rouse : ∀ p x c, cond c x → cond c (M.rouse p x)

/-- **No lost wake-up.**  Whoever sleeps on a channel has reason to. -/
theorem asleep_holds {cond : χ → σ → Prop} {s₀ : State P σ χ κ} (hg : Guarded M ok cond)
    (h : Reach (step M) (Disciplined ok) s₀ s) (h₀ : ∀ p, s₀.status p = .out) {p : P}
      {c : χ} {k : κ} (hp : s.status p = .asleep c k) : cond c s.shared := by
  have hinv : ∀ p c k, s.status p = .asleep c k → cond c s.shared := by
    refine h.invariant (I := fun s => ∀ p c k, s.status p = .asleep c k → cond c s.shared) ?_ ?_
    · intro p c k hp
      rw [h₀ p] at hp
      cases hp
    · intro s a s' hI hok hs p c k hp
      rcases step_cases hs hok with ⟨q, j, hj, rfl⟩ | ⟨q, hq, hback⟩
      · by_cases hpq : p = q
        · -- the process that ran the section went to sleep itself
          subst hpq
          simp only [State.ran, Function.update_self] at hp ⊢
          cases ht : (M.section_ p j s.shared).turn with
          | leave r =>
            rw [ht] at hp
            cases hp
          | sleep c' k' =>
            rw [ht, after] at hp
            cases hp
            exact hg.sleep p j s.shared c k hj ht
        · -- another process was asleep before and has not been woken
          simp only [State.ran, Function.update_of_ne hpq] at hp ⊢
          cases hst : s.status p with
          | out =>
            rw [hst] at hp
            cases hp
          | ready k' =>
            rw [hst] at hp
            cases hp
          | asleep c' k' =>
            rw [hst, wake] at hp
            split_ifs at hp with hw
            cases hp
            exact (hg.keep q j s.shared c hj (hI p c k hst)).resolve_left hw
      · rw [hq]
        exact hg.rouse q s.shared c (hI p c k (hback p c k hp))
  exact hinv p c k hp

end Xv6.Lib.Monitor
