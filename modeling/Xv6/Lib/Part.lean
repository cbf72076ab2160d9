import Xv6.Lib.Prog

/-!
# Programs over a part of a state

A program over `σ` runs over a larger state of which `σ` is a part, and leaves the rest
alone.  The rest may record what the program does, or decide what it is told; `Erases` says
that a program over the larger state does to the part what another does on its own.
-/

namespace Xv6.Lib

namespace Prog

variable {σ τ α β : Type}

/-- What an outcome leaves of the part. -/
def Outcome.onPart (get : τ → σ) : Outcome τ α → Outcome σ α
  | .done a t => .done a (get t)
  | .panicked msg t => .panicked msg (get t)
  | .stuck t => .stuck (get t)

/-- A program over the part, run over the whole. -/
def onPart (get : τ → σ) (put : σ → τ → τ) : Prog σ α → Prog τ α
  | ret a => ret a
  | panic msg => panic msg
  | step g u n => step (fun t => g (get t)) (fun t => put (u (get t)) t) fun t => onPart get put
    (n (get t))

/-- A part that can be read and replaced. -/
structure IsPart (get : τ → σ) (put : σ → τ → τ) : Prop where
  get_put : ∀ s t, get (put s t) = s
  put_get : ∀ t, put (get t) t = t
  put_put : ∀ s s' t, put s (put s' t) = put s t

variable {get : τ → σ} {put : σ → τ → τ} {E : String → Prop}

theorem wp_onPart (h : IsPart get put) {p : Prog σ α} {Q : α → τ → Prop} {t : τ} :
    (p.onPart get put).wp E Q t ↔ p.wp E (fun a s => Q a (put s t)) (get t) := by
  induction p generalizing t with
  | ret a => rw [onPart, wp_ret, wp_ret, h.put_get]
  | panic msg => exact Iff.rfl
  | step g u n ih =>
    rw [onPart, wp_step, wp_step, ih, h.get_put]
    simp only [h.put_put]

/-- `P` does to the part what `p` does. -/
def Erases (get : τ → σ) (P : Prog τ α) (p : Prog σ α) : Prop :=
  ∀ t, (P.run t).onPart get = p.run (get t)

namespace Erases

theorem ret (a : α) : Erases get (Prog.ret a) (Prog.ret a) := fun _ => rfl

theorem onPart (h : IsPart get put) (p : Prog σ α) : Erases get (p.onPart get put) p := by
  intro t
  induction p generalizing t with
  | ret a => rfl
  | panic msg => rfl
  | step g u n ih =>
    rw [Prog.onPart, run, run]
    cases g (get t) with
    | true => exact (ih _ _).trans (by rw [h.get_put]; rfl)
    | false => rfl

theorem bind {P : Prog τ α} {p : Prog σ α} {K : α → Prog τ β} {k : α → Prog σ β}
    (h : Erases get P p) (hk : ∀ a, Erases get (K a) (k a)) : Erases get (P.bind K) (p.bind k) := by
  intro t
  rw [run_bind, run_bind, ← h t]
  cases P.run t with
  | done a t' => exact hk a t'
  | panicked msg t' => rfl
  | stuck t' => rfl

/-- A step that does nothing to the part. -/
theorem change {u : τ → τ} (hu : ∀ t, get (u t) = get t) {P : Prog τ α} {p : Prog σ α}
    (h : Erases get P p) : Erases get ((Prog.change u).bind fun _ => P) p := by
  intro t
  refine Eq.trans ?_ ((h (u t)).trans (by rw [hu t]))
  rfl

theorem forEach {ι : Type} {is : List ι} {B : ι → Prog τ Unit} {b : ι → Prog σ Unit}
    (h : ∀ i, Erases get (B i) (b i)) : Erases get (Prog.forEach is B) (Prog.forEach is b) := by
  induction is with
  | nil => exact ret ()
  | cons i is ih => exact (h i).bind fun _ => ih

end Erases

end Prog

end Xv6.Lib
