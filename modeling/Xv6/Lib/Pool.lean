import Xv6.Lib.Prog

/-!
# Interleaved programs and thread-modular invariants

A pool is a shared state and one program per thread.  Any thread that can move
may move next; a thread whose program has returned starts another call, chosen
from those its client state allows.  A panic halts the pool.

To reason about all interleavings one thread at a time, every thread `t` gets a
ghost value `G t` that says what it holds: locks, references, what it knows
about the data under its locks.  An invariant `Inv s G` ties the shared state to
the ghost values.  `Safe` asks of one thread's program that each of its steps,
taken in any state that satisfies the invariant, keeps it while changing only
its own ghost value.  Other threads' steps leave that value alone, so the
obligations of the threads compose: `Pool.sound`.

* `Pool.Step`, `Pool.Reachable` — the interleaved reading of programs.
* `Safe` with its rules `Safe.bind`, `Safe.mono`, `safe_forEach` and one for each
  primitive program.
* `Pool.sound` — if every call is safe then the invariant holds in every
  reachable state, and what is left of every thread's program is still safe;
  `Pool.Ok.post` reads off what is known of the threads.
* `Pool.runCalls` — the executable counterpart for schedules in which the calls do
  not overlap.
* `Safe.visited` — the same along an execution of one thread on its own.
-/

namespace Xv6.Lib

open Function

variable {σ τ L Γ α β : Type}

/-- A shared state and a program for each thread. -/
structure Pool (σ τ L : Type) where
  shared : σ
  thread : τ → Prog σ L

namespace Pool

variable [DecidableEq τ]

/-- No thread has panicked. -/
def Live (P : Pool σ τ L) : Prop := ∀ t msg, P.thread t ≠ .panic msg

/-- One move of one thread.  `calls t l` are the programs thread `t` may start when
its client state is `l`. -/
inductive Step (calls : τ → L → Prog σ L → Prop) : Pool σ τ L → Pool σ τ L → Prop
  | call {P : Pool σ τ L} {t : τ} {l : L} {p : Prog σ L} : P.Live → P.thread t = .ret l →
      calls t l p → Step calls P { P with thread := update P.thread t p }
  | move {P : Pool σ τ L} {t : τ} {g : σ → Bool} {u : σ → σ} {n : σ → Prog σ L} : P.Live →
      P.thread t = .step g u n → g P.shared = true →
      Step calls P ⟨u P.shared, update P.thread t (n P.shared)⟩

/-- What any interleaving can reach. -/
def Reachable (calls : τ → L → Prog σ L → Prop) : Pool σ τ L → Pool σ τ L → Prop :=
  Relation.ReflTransGen (Step calls)

end Pool

/-! ## Safety of one thread's program -/

section Safe

variable [DecidableEq τ]

/-- Every step of the program keeps the invariant, with thread `t` changing only
its own ghost value; a return meets `Post`, and a panic is one that `allowed`
permits in the state it happens in. -/
def Safe (Inv : σ → (τ → Γ) → Prop) (allowed : σ → String → Prop) (t : τ) :
    Prog σ α → Γ → (α → Γ → Prop) → Prop
  | .ret a, g, Post => Post a g
  | .panic msg, g, _ => ∀ s G, Inv s G → G t = g → allowed s msg
  | .step gd u n, g, Post => ∀ s G, Inv s G → G t = g → gd s = true →
      ∃ g', Inv (u s) (update G t g') ∧
        (Safe Inv allowed t (n s) g' Post ∨ ∃ msg, n s = .panic msg ∧ allowed (u s) msg)

variable {Inv : σ → (τ → Γ) → Prop} {allowed : σ → String → Prop} {t : τ}

@[simp] theorem safe_ret {a : α} {g : Γ} {Post : α → Γ → Prop} :
    Safe Inv allowed t (.ret a) g Post ↔ Post a g := Iff.rfl

theorem safe_panic {msg : String} {g : Γ} {Post : α → Γ → Prop}
    (h : ∀ s G, Inv s G → G t = g → allowed s msg) :
    Safe Inv allowed t (.panic msg : Prog σ α) g Post := h

theorem Safe.mono {p : Prog σ α} {g : Γ} {Post Post' : α → Γ → Prop}
    (h : Safe Inv allowed t p g Post) (hP : ∀ a g, Post a g → Post' a g) :
    Safe Inv allowed t p g Post' := by
  induction p generalizing g with
  | ret a => exact hP a g h
  | panic msg => exact h
  | step gd u n ih =>
    intro s G hI hG hg
    obtain ⟨g', hI', hrest⟩ := h s G hI hG hg
    exact ⟨g', hI', hrest.imp_left (ih s)⟩

/-- Sequencing: the second program starts from whatever the first one leaves. -/
theorem Safe.bind {p : Prog σ α} {k : α → Prog σ β} {g : Γ} {M : α → Γ → Prop}
    {Post : β → Γ → Prop} (h : Safe Inv allowed t p g M)
    (hk : ∀ a g, M a g → Safe Inv allowed t (k a) g Post) :
    Safe Inv allowed t (p.bind k) g Post := by
  induction p generalizing g with
  | ret a => exact hk a g h
  | panic msg => exact h
  | step gd u n ih =>
    intro s G hI hG hg
    obtain ⟨g', hI', hrest | ⟨msg, hn, ha⟩⟩ := h s G hI hG hg
    · exact ⟨g', hI', Or.inl (ih s hrest)⟩
    · exact ⟨g', hI', Or.inr ⟨msg, by simp only [hn, Prog.panic_bind], ha⟩⟩

/-- Loops: an invariant on the ghost value and the elements still to come. -/
theorem safe_forEach {ι : Type} {body : ι → Prog σ Unit} {J : List ι → Γ → Prop} {is : List ι}
    {g : Γ} (h : J is g)
    (hbody : ∀ i rest g, J (i :: rest) g →
      Safe Inv allowed t (body i) g fun _ g' => J rest g') :
    Safe Inv allowed t (Prog.forEach is body) g fun _ g' => J [] g' := by
  induction is generalizing g with
  | nil => exact h
  | cons i is ih => exact (hbody i is g h).bind fun _ _ hg' => ih hg'

/-- The rule for looking at the state: what was seen may be recorded in the ghost
value. -/
theorem safe_look {f : σ → α} {g : Γ} {Post : α → Γ → Prop}
    (h : ∀ s G, Inv s G → G t = g →
      ∃ g', Inv s (update G t g') ∧ Post (f s) g') :
    Safe Inv allowed t (Prog.look f) g Post := by
  intro s G hI hG _
  obtain ⟨g', hI', hp⟩ := h s G hI hG
  exact ⟨g', hI', Or.inl hp⟩

theorem safe_change {u : σ → σ} {g : Γ} {Post : Unit → Γ → Prop}
    (h : ∀ s G, Inv s G → G t = g →
      ∃ g', Inv (u s) (update G t g') ∧ Post () g') :
    Safe Inv allowed t (Prog.change u) g Post := by
  intro s G hI hG _
  obtain ⟨g', hI', hp⟩ := h s G hI hG
  exact ⟨g', hI', Or.inl hp⟩

/-- The rule for a guarded update: the guard held when the update was made. -/
theorem safe_await {gd : σ → Bool} {u : σ → σ} {g : Γ} {Post : Unit → Γ → Prop}
    (h : ∀ s G, Inv s G → G t = g → gd s = true →
      ∃ g', Inv (u s) (update G t g') ∧ Post () g') :
    Safe Inv allowed t (Prog.await gd u) g Post := by
  intro s G hI hG hg
  obtain ⟨g', hI', hp⟩ := h s G hI hG hg
  exact ⟨g', hI', Or.inl hp⟩

/-- The rule for a critical section: it may panic only where that is allowed. -/
theorem safe_critical {f : σ → Except String (α × σ)} {g : Γ} {Post : α → Γ → Prop}
    (hok : ∀ s G a s', Inv s G → G t = g → f s = .ok (a, s') →
      ∃ g', Inv s' (update G t g') ∧ Post a g')
    (herr : ∀ s G msg, Inv s G → G t = g → f s = .error msg → allowed s msg) :
    Safe Inv allowed t (Prog.critical f) g Post := by
  intro s G hI hG _
  cases hf : f s with
  | ok r =>
    obtain ⟨a, s'⟩ := r
    obtain ⟨g', hI', hp⟩ := hok s G a s' hI hG hf
    exact ⟨g', by simpa [hf] using hI', Or.inl (by simpa [hf] using hp)⟩
  | error msg =>
    refine ⟨g, ?_, Or.inr ⟨msg, by simp [hf], by simpa [hf] using herr s G msg hI hG hf⟩⟩
    rw [← hG, update_eq_self]
    simpa [hf] using hI

/-- The rule for a check: it passes, or the panic is allowed. -/
theorem safe_panicIf {c : σ → Bool} {msg : String} {g : Γ} {Post : Unit → Γ → Prop}
    (h : ∀ s G, Inv s G → G t = g → (c s = true ∧ allowed s msg) ∨ (c s = false ∧ Post () g)) :
    Safe Inv allowed t (Prog.panicIf c msg) g Post := by
  intro s G hI hG _
  refine ⟨g, ?_, ?_⟩
  · rw [id, ← hG, update_eq_self]
    exact hI
  · rcases h s G hI hG with ⟨hc, ha⟩ | ⟨hc, hp⟩
    · exact .inr ⟨msg, by simp [hc], ha⟩
    · exact .inl (by simpa [hc] using hp)

end Safe

/-! ## Soundness -/

section Sound

variable [DecidableEq τ] {Inv : σ → (τ → Γ) → Prop} {allowed : σ → String → Prop} {t : τ}

/-- What is known of a program once some of it has run: it is safe, or it has just
panicked with leave. -/
def Fine (Inv : σ → (τ → Γ) → Prop) (allowed : σ → String → Prop) (t : τ) (s : σ)
    (p : Prog σ α) (g : Γ) (Post : α → Γ → Prop) : Prop :=
  Safe Inv allowed t p g Post ∨ ∃ msg, p = .panic msg ∧ allowed s msg

/-- Along an execution of one thread on its own the invariant holds in every state
visited, and what is left of the program is safe. -/
theorem Safe.visited {p p' : Prog σ α} {s s' : σ} {G : τ → Γ} {Post : α → Γ → Prop}
    (h : Fine Inv allowed t s p (G t) Post) (hI : Inv s G) (hv : Prog.Visited p s p' s') :
    ∃ G', Inv s' G' ∧ Fine Inv allowed t s' p' (G' t) Post := by
  induction hv generalizing G with
  | refl p s => exact ⟨G, hI, h⟩
  | step hg _ ih =>
    rcases h with h | ⟨msg, hp, -⟩
    · obtain ⟨g', hI', hrest⟩ := h _ G hI rfl hg
      exact ih (G := update G t g') (by simpa [Fine] using hrest) hI'
    · cases hp

end Sound

namespace Pool

variable [DecidableEq τ]

/-- What the thread-modular argument carries: the invariant, and that every thread
is safe from here on. -/
def Ok (Inv : σ → (τ → Γ) → Prop) (allowed : σ → String → Prop) (Post : τ → L → Γ → Prop)
    (P : Pool σ τ L) : Prop :=
  ∃ G, Inv P.shared G ∧ ∀ t, Fine Inv allowed t P.shared (P.thread t) (G t) (Post t)

variable {Inv : σ → (τ → Γ) → Prop} {allowed : σ → String → Prop} {Post : τ → L → Γ → Prop}
  {calls : τ → L → Prog σ L → Prop}

/-- In a pool where nobody has panicked every thread is safe. -/
theorem Live.safe {P : Pool σ τ L} (hl : P.Live) {t : τ} {g : Γ} {Q : L → Γ → Prop}
    (h : Fine Inv allowed t P.shared (P.thread t) g Q) : Safe Inv allowed t (P.thread t) g Q := by
  rcases h with h | ⟨msg, hp, -⟩
  · exact h
  · exact absurd hp (hl t msg)

theorem Ok.step (hcalls : ∀ t l g p, Post t l g → calls t l p →
      Safe Inv allowed t p g (Post t))
    {P P' : Pool σ τ L} (h : P.Ok Inv allowed Post) (hs : Step calls P P') :
    P'.Ok Inv allowed Post := by
  obtain ⟨G, hI, hsafe⟩ := h
  cases hs with
  | @call t l p hl ht hc =>
    refine ⟨G, hI, fun r => Or.inl ?_⟩
    by_cases hr : r = t
    · subst hr
      have hpost := hl.safe (hsafe r)
      rw [ht] at hpost
      simpa using hcalls r l (G r) p hpost hc
    · simpa [hr] using hl.safe (hsafe r)
  | @move t g u n hl ht hg =>
    have hstep := hl.safe (hsafe t)
    rw [ht] at hstep
    obtain ⟨g', hI', hrest⟩ := hstep P.shared G hI rfl hg
    refine ⟨update G t g', hI', fun r => ?_⟩
    by_cases hr : r = t
    · subst hr; simpa [Fine] using hrest
    · exact .inl (by simpa [hr] using hl.safe (hsafe r))

/-- **Thread-modular soundness.**  If every call a client may make is safe, then
in every state any interleaving reaches the invariant holds and every thread is
still safe. -/
theorem sound (hcalls : ∀ t l g p, Post t l g → calls t l p →
      Safe Inv allowed t p g (Post t))
    {P P' : Pool σ τ L} (h : P.Ok Inv allowed Post) (hr : Reachable calls P P') :
    P'.Ok Inv allowed Post := by
  induction hr with
  | refl => exact h
  | tail _ hs ih => exact ih.step hcalls hs

/-- A thread may run on its own for a while. -/
theorem reachable_of_visited {p p' : Prog σ L} {s s' : σ} {T : τ → Prog σ L} {t : τ}
    (hT : ∀ r, r ≠ t → ∀ msg, T r ≠ .panic msg) (hv : Prog.Visited p s p' s') :
    Reachable calls ⟨s, update T t p⟩ ⟨s', update T t p'⟩ := by
  induction hv with
  | refl p s => exact .refl
  | @step g u n s s' p' hg _ ih =>
    refine Relation.ReflTransGen.head ?_ ih
    have hlive : Live ⟨s, update T t (.step g u n)⟩ := by
      intro r msg
      by_cases hr : r = t
      · subst hr; simp
      · simpa [hr] using hT r hr msg
    have hstep : Step calls ⟨s, update T t (.step g u n)⟩
        ⟨u s, update (update T t (.step g u n)) t (n s)⟩ :=
      Step.move hlive (by simp) hg
    simpa using hstep

/-- A thread between calls may make a call and run it on its own. -/
theorem reachable_of_call {P : Pool σ τ L} (hl : P.Live) {t : τ} {l : L} {p p' : Prog σ L} {s' : σ}
    (ht : P.thread t = .ret l) (hc : calls t l p) (hv : Prog.Visited p P.shared p' s') :
    Reachable calls P ⟨s', update P.thread t p'⟩ :=
  Relation.ReflTransGen.head (Step.call hl ht hc)
    (reachable_of_visited (fun r _ msg => hl r msg) hv)

/-- Let threads make calls one after the other, each run on its own to its end; a
call that panics ends the run. -/
def runCalls : List (τ × (L → Prog σ L)) → Pool σ τ L → Option (Pool σ τ L)
  | [], P => some P
  | (t, k) :: rest, P =>
    match P.thread t with
    | .ret l =>
      match (k l).run P.shared with
      | .done l' s' => runCalls rest ⟨s', update P.thread t (.ret l')⟩
      | .panicked msg s' =>
        if rest.isEmpty then some ⟨s', update P.thread t (.panic msg)⟩ else none
      | .stuck _ => none
    | _ => none

/-- A run computed that way is an interleaving. -/
theorem reachable_of_runCalls {cs : List (τ × (L → Prog σ L))}
    (hcs : ∀ c ∈ cs, ∀ l, calls c.1 l (c.2 l)) {P P' : Pool σ τ L} (hl : P.Live)
    (h : runCalls cs P = some P') : Reachable calls P P' := by
  induction cs generalizing P with
  | nil =>
    simp only [runCalls, Option.some.injEq] at h
    exact h ▸ .refl
  | cons c rest ih =>
    obtain ⟨t, k⟩ := c
    rw [runCalls] at h
    split at h
    · rename_i l ht
      have hcall := hcs (t, k) List.mem_cons_self l
      split at h
      · rename_i l' s' hrun
        refine (reachable_of_call hl ht hcall (Prog.visited_of_run hrun)).trans
          (ih (fun c hc => hcs c (List.mem_cons_of_mem _ hc)) (fun r msg => ?_) h)
        by_cases hr : r = t
        · subst hr; simp
        · simpa [hr] using hl r msg
      · rename_i msg s' hrun
        split at h
        · simp only [Option.some.injEq] at h
          exact h ▸ reachable_of_call hl ht hcall (Prog.visited_of_panicked hrun)
        · cases h
      · cases h
    · cases h

/-- What holds of a thread that is between calls. -/
theorem Ok.post {P : Pool σ τ L} (h : P.Ok Inv allowed Post) :
    ∃ G, Inv P.shared G ∧ (∀ t l, P.thread t = .ret l → Post t l (G t)) ∧
      ∀ t msg, P.thread t = .panic msg → allowed P.shared msg := by
  obtain ⟨G, hI, hfine⟩ := h
  refine ⟨G, hI, fun t l ht => ?_, fun t msg ht => ?_⟩
  · rcases hfine t with h | ⟨msg, hp, -⟩
    · rwa [ht] at h
    · rw [ht] at hp
      cases hp
  · rcases hfine t with h | ⟨msg', hp, ha⟩
    · rw [ht] at h
      exact h P.shared G hI rfl
    · rw [ht] at hp
      cases hp
      exact ha

end Pool

end Xv6.Lib
