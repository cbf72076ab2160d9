import Mathlib

/-!
# Programs made of atomic steps

A program over a shared state `σ` is a tree: it has returned a value, it has
panicked, or it is about to take one atomic step, which waits until its guard
holds, changes the state and continues with a program that may depend on what
the step saw.  Straight-line code, blocking locks, loops over a list and early
returns are all of this form, and one program text serves two readings:

* `run`, the code executed on its own, with `Visited` for the states it passes
  through on the way;
* the interleaved reading of `Xv6.Lib.Pool`.

`wp` is the weakest precondition of the first reading, with the panics that are
accepted as a parameter: none of them for code that must return, all of them for
what holds if it returns.  `wp_iff_run` says it is exactly that, and `wp_bind`,
`wp_step`, `wp_forEach` are its rules.
-/

namespace Xv6.Lib

/-- A program over the state `σ` that returns an `α`. -/
inductive Prog (σ : Type) (α : Type) where
  /-- Return a value. -/
  | ret (a : α)
  /-- Halt everything with a message. -/
  | panic (msg : String)
  /-- Wait for `guard`, update the state, continue with what `next` picks from the
  state before the update. -/
  | step (guard : σ → Bool) (upd : σ → σ) (next : σ → Prog σ α)

namespace Prog

variable {σ α β γ : Type}

/-- Sequencing. -/
def bind : Prog σ α → (α → Prog σ β) → Prog σ β
  | ret a, k => k a
  | panic msg, _ => panic msg
  | step g u n, k => step g u fun s => (n s).bind k

instance : Monad (Prog σ) where
  pure := ret
  bind := bind

@[simp] theorem pure_eq (a : α) : (pure a : Prog σ α) = ret a := rfl

@[simp] theorem bind_eq (p : Prog σ α) (k : α → Prog σ β) : p >>= k = p.bind k := rfl

@[simp] theorem ret_bind (a : α) (k : α → Prog σ β) : (ret a).bind k = k a := rfl

@[simp] theorem panic_bind (msg : String) (k : α → Prog σ β) :
    (panic msg : Prog σ α).bind k = panic msg := rfl

@[simp] theorem step_bind (g : σ → Bool) (u : σ → σ) (n : σ → Prog σ α) (k : α → Prog σ β) :
    (step g u n).bind k = step g u fun s => (n s).bind k := rfl

theorem bind_assoc (p : Prog σ α) (k : α → Prog σ β) (l : β → Prog σ γ) :
    (p.bind k).bind l = p.bind fun a => (k a).bind l := by
  induction p with
  | ret a => rfl
  | panic msg => rfl
  | step g u n ih =>
    simp only [step_bind]
    congr 1
    funext s
    exact ih s

theorem bind_ret (p : Prog σ α) : p.bind ret = p := by
  induction p with
  | ret a => rfl
  | panic msg => rfl
  | step g u n ih =>
    simp only [step_bind]
    congr 1
    funext s
    exact ih s

/-! ## Primitive programs -/

/-- Look at the state. -/
def look (f : σ → α) : Prog σ α := step (fun _ => true) id fun s => ret (f s)

/-- Change the state. -/
def change (u : σ → σ) : Prog σ Unit := step (fun _ => true) u fun _ => ret ()

/-- Wait for a condition and change the state in the same step. -/
def await (g : σ → Bool) (u : σ → σ) : Prog σ Unit := step g u fun _ => ret ()

/-- A critical section: one step that returns a value or panics, leaving the
state alone in that case. -/
def critical (f : σ → Except String (α × σ)) : Prog σ α :=
  step (fun _ => true)
    (fun s => match f s with
      | .ok (_, s') => s'
      | .error _ => s)
    (fun s => match f s with
      | .ok (a, _) => ret a
      | .error msg => panic msg)

/-- Panic when a condition on the state holds. -/
def panicIf (c : σ → Bool) (msg : String) : Prog σ Unit :=
  step (fun _ => true) id fun s => if c s then panic msg else ret ()

/-- Run the body on every element of a list, in order. -/
def forEach {ι : Type} : List ι → (ι → Prog σ Unit) → Prog σ Unit
  | [], _ => ret ()
  | i :: is, body => (body i).bind fun _ => forEach is body

/-! ## Execution on its own -/

/-- How an execution ends. -/
inductive Outcome (σ : Type) (α : Type) where
  /-- The program returned. -/
  | done (a : α) (s : σ)
  /-- The program panicked. -/
  | panicked (msg : String) (s : σ)
  /-- The program waits for a condition nobody else will establish. -/
  | stuck (s : σ)

/-- Execute a program with nobody else running. -/
def run : Prog σ α → σ → Outcome σ α
  | ret a, s => .done a s
  | panic msg, s => .panicked msg s
  | step g u n, s => if g s then run (n s) (u s) else .stuck s

theorem run_bind (p : Prog σ α) (k : α → Prog σ β) (s : σ) : (p.bind k).run s =
    match p.run s with
    | .done a s' => (k a).run s'
    | .panicked msg s' => .panicked msg s'
    | .stuck s' => .stuck s' := by
  induction p generalizing s with
  | ret a => rfl
  | panic msg => rfl
  | step g u n ih =>
    rw [step_bind, run, run]
    cases g s with
    | true => exact ih s (u s)
    | false => rfl

theorem run_bind_of_done {p : Prog σ α} {s s' : σ} {a : α} (h : p.run s = .done a s')
    (k : α → Prog σ β) : (p.bind k).run s = (k a).run s' := by
  rw [run_bind, h]

/-- `Visited p s p' s'` : on its own, `p` started in `s` gets to `s'` with `p'` left
to do. -/
inductive Visited : Prog σ α → σ → Prog σ α → σ → Prop
  | refl (p : Prog σ α) (s : σ) : Visited p s p s
  | step {g : σ → Bool} {u : σ → σ} {n : σ → Prog σ α} {s s' : σ} {p' : Prog σ α} :
      g s = true → Visited (n s) (u s) p' s' → Visited (step g u n) s p' s'

/-- Take `n` steps, fewer if the program ends or blocks before. -/
def stepsN : ℕ → Prog σ α → σ → Prog σ α × σ
  | n + 1, step g u k, s => if g s then stepsN n (k s) (u s) else (step g u k, s)
  | _, p, s => (p, s)

theorem visited_stepsN (n : ℕ) (p : Prog σ α) (s : σ) :
    Visited p s (stepsN n p s).1 (stepsN n p s).2 := by
  induction n generalizing p s with
  | zero => cases p <;> exact .refl _ _
  | succ n ih =>
    cases p with
    | ret a => exact .refl _ _
    | panic msg => exact .refl _ _
    | step g u k =>
      rw [stepsN]
      split
      · rename_i hg
        exact .step hg (ih (k s) (u s))
      · exact .refl _ _

/-- An execution that returns has visited its last state. -/
theorem visited_of_run {p : Prog σ α} {s s' : σ} {a : α} (h : p.run s = .done a s') :
    Visited p s (ret a) s' := by
  induction p generalizing s with
  | ret b =>
    simp only [run, Outcome.done.injEq] at h
    obtain ⟨rfl, rfl⟩ := h
    exact .refl _ _
  | panic msg => simp [run] at h
  | step g u n ih =>
    rw [run] at h
    split at h
    · rename_i hg
      exact .step hg (ih s h)
    · cases h

theorem visited_of_panicked {p : Prog σ α} {s s' : σ} {msg : String}
    (h : p.run s = .panicked msg s') : Visited p s (panic msg) s' := by
  induction p generalizing s with
  | ret b => simp [run] at h
  | panic m =>
    simp only [run, Outcome.panicked.injEq] at h
    obtain ⟨rfl, rfl⟩ := h
    exact .refl _ _
  | step g u n ih =>
    rw [run] at h
    split at h
    · rename_i hg
      exact .step hg (ih s h)
    · cases h

/-! ## Weakest preconditions -/

/-- `p.wp E Q s` : executed from `s` on its own, `p` does not block, and it returns with
`Q` or panics with a message in `E`. -/
def wp (E : String → Prop) : Prog σ α → (α → σ → Prop) → σ → Prop
  | ret a, Q, s => Q a s
  | panic msg, _, _ => E msg
  | step g u n, Q, s => g s = true ∧ (n s).wp E Q (u s)

/-- No panic is accepted: the program must return. -/
def noPanic : String → Prop := fun _ => False

/-- Every panic is accepted. -/
def anyPanic : String → Prop := fun _ => True

theorem anyPanic_all : ∀ msg, anyPanic msg := fun _ => trivial

variable {E : String → Prop} {Q Q' : α → σ → Prop} {s : σ}

@[simp] theorem wp_ret (a : α) : (ret a).wp E Q s ↔ Q a s := Iff.rfl

@[simp] theorem wp_panic (msg : String) : (panic msg : Prog σ α).wp E Q s ↔ E msg := Iff.rfl

theorem wp_step (g : σ → Bool) (u : σ → σ) (n : σ → Prog σ α) :
    (step g u n).wp E Q s ↔ g s = true ∧ (n s).wp E Q (u s) := Iff.rfl

/-- The weakest precondition is about the execution. -/
theorem wp_iff_run (p : Prog σ α) : p.wp E Q s ↔
    (∃ a s', p.run s = .done a s' ∧ Q a s') ∨ ∃ msg s', p.run s = .panicked msg s' ∧ E msg := by
  induction p generalizing s with
  | ret a => simp [run]
  | panic msg => simp [run]
  | step g u n ih =>
    rw [wp_step, run, ih]
    cases h : g s <;> simp

/-- Where no panic is accepted, the program returns. -/
theorem wp_noPanic_iff (p : Prog σ α) :
    p.wp noPanic Q s ↔ ∃ a s', p.run s = .done a s' ∧ Q a s' := by
  rw [wp_iff_run]
  constructor
  · rintro (h | ⟨msg, s', -, h⟩)
    · exact h
    · exact h.elim
  · exact .inl

/-- Whatever panics are accepted, a program that returned did so with `Q`. -/
theorem of_wp_of_run {p : Prog σ α} (h : p.wp E Q s) {a : α} {s' : σ}
    (hrun : p.run s = .done a s') : Q a s' := by
  rcases (wp_iff_run p).1 h with ⟨b, s'', hrun', hq⟩ | ⟨msg, s'', hrun', -⟩
  · rw [hrun] at hrun'
    cases hrun'
    exact hq
  · rw [hrun] at hrun'
    cases hrun'

theorem wp_mono {p : Prog σ α} (h : p.wp E Q s) (hQ : ∀ a s', Q a s' → Q' a s') :
    p.wp E Q' s := by
  refine (wp_iff_run p).2 (((wp_iff_run p).1 h).imp_left ?_)
  rintro ⟨a, s', hrun, hq⟩
  exact ⟨a, s', hrun, hQ a s' hq⟩

theorem wp_bind {R : β → σ → Prop} (p : Prog σ α) (k : α → Prog σ β) :
    (p.bind k).wp E R s ↔ p.wp E (fun a s' => (k a).wp E R s') s := by
  induction p generalizing s with
  | ret a => rfl
  | panic msg => rfl
  | step g u n ih => simp only [step_bind, wp_step, ih]

@[simp] theorem wp_look (f : σ → α) : (look f).wp E Q s ↔ Q (f s) s := by
  simp [look, wp_step]

@[simp] theorem wp_change {Q : Unit → σ → Prop} (u : σ → σ) :
    (change u).wp E Q s ↔ Q () (u s) := by
  simp [change, wp_step]

@[simp] theorem wp_await {Q : Unit → σ → Prop} (g : σ → Bool) (u : σ → σ) :
    (await g u).wp E Q s ↔ g s = true ∧ Q () (u s) := by
  simp [await, wp_step]

@[simp] theorem wp_panicIf {Q : Unit → σ → Prop} (c : σ → Bool) (msg : String) :
    (panicIf c msg).wp E Q s ↔ (c s = true → E msg) ∧ (c s = false → Q () s) := by
  cases h : c s <;> simp [panicIf, wp_step, h]

theorem wp_critical (f : σ → Except String (α × σ)) : (critical f).wp E Q s ↔
    (∃ a s', f s = .ok (a, s') ∧ Q a s') ∨ ∃ msg, f s = .error msg ∧ E msg := by
  cases h : f s with
  | ok r => obtain ⟨a, s'⟩ := r; simp [critical, wp_step, h]
  | error msg => simp [critical, wp_step, h]

/-- The rule for loops: an invariant on the elements still to come. -/
theorem wp_forEach {ι : Type} {body : ι → Prog σ Unit} {I : List ι → σ → Prop}
    {is : List ι} (h : I is s)
    (hbody : ∀ i rest s, I (i :: rest) s → (body i).wp E (fun _ s' => I rest s') s) :
    (forEach is body).wp E (fun _ s' => I [] s') s := by
  induction is generalizing s with
  | nil => exact h
  | cons i is ih =>
    rw [forEach, wp_bind]
    exact wp_mono (hbody i is s h) fun _ s' hs' => ih hs'

/-! ## What every run keeps -/

/-- Whenever `p` returns, `R` relates the state before to the state after. -/
def Keeps (R : σ → σ → Prop) (p : Prog σ α) : Prop := ∀ s a s', p.run s = .done a s' → R s s'

section Keeps

variable {R : σ → σ → Prop} [Std.Refl R] [IsTrans σ R]

omit [IsTrans σ R] in
theorem keeps_ret (a : α) : (ret a : Prog σ α).Keeps R := by
  intro s b s' h
  cases h
  exact Std.Refl.refl s

omit [Std.Refl R] [IsTrans σ R] in
theorem keeps_panic (msg : String) : (panic msg : Prog σ α).Keeps R := by
  intro s b s' h
  cases h

omit [Std.Refl R] in
theorem keeps_step {g : σ → Bool} {u : σ → σ} {n : σ → Prog σ α} (hu : ∀ s, R s (u s))
    (hn : ∀ s, (n s).Keeps R) : (step g u n).Keeps R := by
  intro s b s' h
  rw [run] at h
  split at h
  · exact IsTrans.trans _ _ _ (hu s) (hn s _ _ _ h)
  · cases h

omit [Std.Refl R] in
theorem keeps_bind {p : Prog σ α} {k : α → Prog σ β} (hp : p.Keeps R)
    (hk : ∀ a, (k a).Keeps R) : (p.bind k).Keeps R := by
  intro s b s' h
  rw [run_bind] at h
  cases hrun : p.run s with
  | done a t =>
    rw [hrun] at h
    exact IsTrans.trans _ _ _ (hp s a t hrun) (hk a t b s' h)
  | panicked msg t =>
    rw [hrun] at h
    cases h
  | stuck t =>
    rw [hrun] at h
    cases h

theorem keeps_look (f : σ → α) : (look f).Keeps R :=
  keeps_step Std.Refl.refl fun _ => keeps_ret _

theorem keeps_change {u : σ → σ} (hu : ∀ s, R s (u s)) : (change u).Keeps R :=
  keeps_step hu fun _ => keeps_ret _

theorem keeps_await {g : σ → Bool} {u : σ → σ} (hu : ∀ s, R s (u s)) : (await g u).Keeps R :=
  keeps_step hu fun _ => keeps_ret _

end Keeps

end Prog

end Xv6.Lib
