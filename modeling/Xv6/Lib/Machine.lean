import Mathlib

/-!
# Machines with labelled steps

A machine is a partial step function `step : σ → ι → Option σ`: in a state, an
action is either refused (`none`) or leads to one next state.  Concurrency is
the choice of the action: a label names the process that moves and what it does.

* `Reach step ok s₀ s` — `s` is reached from `s₀` by actions that all meet the
  discipline `ok`, each judged in the state it is taken in.
* `Reach.invariant` — the induction every safety proof uses: what holds at the
  start and is kept by every disciplined step holds in every state reached.
* `Reach.mono` — a stricter discipline reaches no more.
* `sum_update_add` — a quantity summed over the processes when one of them moves.
* `exec` — the executable counterpart, a whole list of actions at once, with
  `reach_of_exec` to turn a computed run into a reachable state.
-/

namespace Xv6.Lib

variable {σ ι : Type*}

/-- The states reached from `s₀` by steps that all meet `ok`. -/
inductive Reach (step : σ → ι → Option σ) (ok : σ → ι → Prop) (s₀ : σ) : σ → Prop
  | init : Reach step ok s₀ s₀
  | step {s s' : σ} {a : ι} : Reach step ok s₀ s → ok s a → step s a = some s' →
      Reach step ok s₀ s'

/-- No discipline at all. -/
def anyStep (_ : σ) (_ : ι) : Prop := True

variable {step : σ → ι → Option σ} {ok ok' : σ → ι → Prop} {s₀ s : σ}

/-- What holds initially and is kept by every disciplined step holds in every
state a disciplined run reaches. -/
theorem Reach.invariant {I : σ → Prop} (h : Reach step ok s₀ s) (h₀ : I s₀)
    (hstep : ∀ s a s', I s → ok s a → step s a = some s' → I s') : I s := by
  induction h with
  | init => exact h₀
  | step _ hok hs ih => exact hstep _ _ _ ih hok hs

/-- A stricter discipline reaches no more states. -/
theorem Reach.mono (h : Reach step ok s₀ s) (hle : ∀ s a, ok s a → ok' s a) :
    Reach step ok' s₀ s := by
  induction h with
  | init => exact .init
  | step _ hok hs ih => exact .step ih (hle _ _ hok) hs

/-! ## Counting over the processes -/

/-- When process `p` moves to `c`, a sum over all processes trades the weight of
where `p` was for the weight of `c`. -/
theorem sum_update_add {P α M : Type*} [Fintype P] [DecidableEq P] [AddCommMonoid M]
    (w : α → M) (g : P → α) (p : P) (c : α) :
    (∑ q, w (Function.update g p c q)) + w (g p) = (∑ q, w (g q)) + w c := by
  have hcomp : (fun q => w (Function.update g p c q)) =
      Function.update (fun q => w (g q)) p (w c) := by
    funext q
    by_cases h : q = p
    · subst h; simp
    · simp [h]
  have hsplit : ∑ q, w (g q) = w (g p) + ∑ q ∈ Finset.univ \ {p}, w (g q) := by
    have h := Finset.sum_sdiff (f := fun q => w (g q)) (Finset.subset_univ {p})
    rw [Finset.sum_singleton] at h
    rw [← h, add_comm]
  rw [hcomp, Finset.sum_update_of_mem (Finset.mem_univ p), hsplit]
  abel

/-! ## Executing a list of actions -/

/-- Run a list of actions, checking the discipline at each; `none` as soon as an
action is refused or breaks the discipline. -/
def exec (step : σ → ι → Option σ) (ok : σ → ι → Bool) : σ → List ι → Option σ
  | s, [] => some s
  | s, a :: as => if ok s a then (step s a).bind fun s' => exec step ok s' as else none

theorem reach_of_exec {okb : σ → ι → Bool} (hok : ∀ s a, okb s a = true → ok s a)
    {as : List ι} {s₁ : σ} (h₁ : Reach step ok s₀ s₁) (h : exec step okb s₁ as = some s) :
    Reach step ok s₀ s := by
  induction as generalizing s₁ with
  | nil =>
    rw [exec, Option.some.injEq] at h
    exact h ▸ h₁
  | cons a as ih =>
    rw [exec] at h
    split at h
    · rename_i hoka
      obtain ⟨s₂, hs₂, hrest⟩ := Option.bind_eq_some_iff.1 h
      exact ih (.step h₁ (hok _ _ hoka) hs₂) hrest
    · cases h

end Xv6.Lib
