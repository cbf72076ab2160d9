import Xv6.Proc.Pipe

/-!
# The counters of a pipe under overflow checks

The kernel is built under the dev profile, where an addition of two `u32` that does not fit
panics.  Here the additions of `is_full`, `pipewrite` and `piperead` are checked ones, and a
section that panics brings the machine to a stop.

* `fillChecked_eq`, `drainChecked_eq` — as long as they do not panic, the loops do what they do
  with counters that wrap.
* `Unwrapped.panics_iff` — the sections that panic.
* `counters_until` — runs up to the first such addition.
-/

namespace Xv6.Proc

open Lib Lib.Monitor

/-- `a + b` on `u32`, `none` where it panics. -/
def checkedAdd (a b : ℕ) : Option ℕ := if a + b < 2 ^ 32 then some (a + b) else none

namespace Pipe

variable {P : Type}

/-- `is_full`. -/
def isFullChecked (s : Pipe P) : Option Bool := do
  let limit ← checkedAdd s.nread PIPESIZE
  some (s.nwrite == limit)

/-- Store one byte. -/
def putChecked (s : Pipe P) (b : UInt8) : Option (Pipe P) := do
  let nwrite ← checkedAdd s.nwrite 1
  some { s with
    data := Function.update s.data (s.nwrite % PIPESIZE) b
    nwrite := nwrite
    stored := s.stored ++ [b] }

/-- Take one byte. -/
def takeChecked (s : Pipe P) : Option (Pipe P) := do
  let nread ← checkedAdd s.nread 1
  some { s with
    nread := nread
    taken := s.taken ++ [s.data (s.nread % PIPESIZE)] }

/-- The loop of `pipewrite` up to the next sleep. -/
def fillChecked : List UInt8 → Pipe P → Option (Pipe P × List UInt8)
  | [], s => some (s, [])
  | b :: bs, s => do
    let full ← s.isFullChecked
    if full then some (s, b :: bs)
    else do
      let s' ← s.putChecked b
      fillChecked bs s'

/-- The copy loop of `piperead`. -/
def drainChecked : ℕ → ℕ → Pipe P → Option (Pipe P × ℕ)
  | 0, count, s => some (s, count)
  | n + 1, count, s =>
    if s.isEmpty then some (s, count)
    else do
      let s' ← s.takeChecked
      drainChecked n (count + 1) s'

/-- `pipewrite`, from the point where it has the lock. -/
def pipewriteChecked (p : P) (n : ℕ) (bytes : List UInt8) (s : Pipe P) :
    Option (Outcome (Pipe P) Chan Call ℤ) := do
  let r ← fillChecked bytes s
  match r with
  | (s', []) => some ⟨s', [.nread], .leave n⟩
  | (s', rest) =>
    if !s'.readopen || s'.killed p then some ⟨s', [], .leave (-1)⟩
    else some ⟨s', [.nread], .sleep .nwrite (.write n rest)⟩

/-- `piperead`, from the point where it has the lock. -/
def pipereadChecked (p : P) (n : ℤ) (s : Pipe P) : Option (Outcome (Pipe P) Chan Call ℤ) :=
  if s.isEmpty && s.writeopen then
    if s.killed p then some ⟨s, [], .leave (-1)⟩ else some ⟨s, [], .sleep .nread (.read n)⟩
  else do
    let r ← drainChecked n.toNat 0 s
    some ⟨r.1, [.nwrite], .leave r.2⟩

/-- A section of a call; `pipeclose` adds nothing. -/
def sectionChecked (p : P) (k : Call) (s : Pipe P) : Option (Outcome (Pipe P) Chan Call ℤ) :=
  match k with
  | .write n bytes => pipewriteChecked p n bytes s
  | .read n => pipereadChecked p n s
  | .close writable => some (pipeclose writable s)

/-- The additions of a section fit: those of a write that has something to store fit as long as
`nread + PIPESIZE` does, and those of the others always do. -/
def Fits (k : Call) (s : Pipe P) : Prop :=
  ∀ n bytes, k = .write n bytes → bytes ≠ [] → s.nread + PIPESIZE < 2 ^ 32

/-- Nothing has wrapped so far. -/
structure Unwrapped (s : Pipe P) : Prop where
  sound : s.Sound
  stored : s.stored.length < 2 ^ 32

variable {s : Pipe P}

theorem Unwrapped.nwrite (h : s.Unwrapped) : s.nwrite = s.stored.length := by
  rw [h.sound.nwrite, Nat.mod_eq_of_lt h.stored]

theorem Unwrapped.nread (h : s.Unwrapped) : s.nread = s.taken.length := by
  rw [h.sound.nread, Nat.mod_eq_of_lt (h.sound.le.trans_lt h.stored)]

theorem Fresh.unwrapped (h : s.Fresh) : s.Unwrapped := by
  refine ⟨h.sound, ?_⟩
  rw [h.stored]
  decide

theorem checkedAdd_of_lt {a b : ℕ} (h : a + b < 2 ^ 32) : checkedAdd a b = some (a + b) := if_pos h

/-! ## The loops -/

theorem isFullChecked_eq (hfit : s.nread + PIPESIZE < 2 ^ 32) :
    s.isFullChecked = some s.isFull := by
  unfold isFullChecked isFull
  rw [checkedAdd_of_lt hfit, Nat.mod_eq_of_lt hfit]
  rfl

theorem Unwrapped.put (h : s.Unwrapped) (hfit : s.nread + PIPESIZE < 2 ^ 32)
    (hfull : s.isFull = false) (b : UInt8) :
    s.putChecked b = some (s.put b) ∧ (s.put b).Unwrapped := by
  have hsound := h.sound.put hfull b
  have hroom : (s.stored ++ [b]).length ≤ s.taken.length + PIPESIZE := hsound.room
  rw [List.length_append, List.length_singleton] at hroom
  rw [h.nread] at hfit
  have hlt : s.nwrite + 1 < 2 ^ 32 := by
    rw [h.nwrite]
    omega
  refine ⟨?_, hsound, ?_⟩
  · unfold putChecked Pipe.put
    rw [checkedAdd_of_lt hlt, Nat.mod_eq_of_lt hlt]
    rfl
  · change (s.stored ++ [b]).length < 2 ^ 32
    rw [List.length_append, List.length_singleton]
    omega

theorem Unwrapped.take (h : s.Unwrapped) (hempty : s.isEmpty = false) :
    s.takeChecked = some s.take ∧ s.take.Unwrapped := by
  have hne : s.stored.length ≠ s.taken.length := by
    intro he
    rw [h.sound.isEmpty_iff.2 he] at hempty
    cases hempty
  have hle := h.sound.le
  have hstored := h.stored
  have hlt : s.nread + 1 < 2 ^ 32 := by
    rw [h.nread]
    omega
  refine ⟨?_, h.sound.take hempty, hstored⟩
  unfold takeChecked Pipe.take
  rw [checkedAdd_of_lt hlt, Nat.mod_eq_of_lt hlt]
  rfl

/-- The loop of `pipewrite` does not panic if the first comparison does not. -/
theorem Unwrapped.fill (h : s.Unwrapped) (hfit : s.nread + PIPESIZE < 2 ^ 32) (bs : List UInt8) :
    fillChecked bs s = some (fill bs s) ∧ (fill bs s).1.Unwrapped := by
  induction bs generalizing s with
  | nil => exact ⟨rfl, h⟩
  | cons b bs ih =>
    unfold fillChecked Pipe.fill
    rw [isFullChecked_eq hfit]
    cases hfull : s.isFull with
    | true => exact ⟨rfl, h⟩
    | false =>
      obtain ⟨hput, hnext⟩ := h.put hfit hfull b
      simp only [Option.bind_eq_bind, Option.bind_some, hput, Bool.false_eq_true, if_false]
      exact ih hnext hfit

/-- With something to store, it panics if that one does. -/
theorem fillChecked_eq_none {bs : List UInt8} (hbs : bs ≠ [])
    (hfit : ¬s.nread + PIPESIZE < 2 ^ 32) :
    fillChecked bs s = none := by
  cases bs with
  | nil => exact absurd rfl hbs
  | cons b bs =>
    unfold fillChecked isFullChecked checkedAdd
    rw [if_neg hfit]
    rfl

/-- The copy loop of `piperead` never panics: `nread` stays below `nwrite`. -/
theorem Unwrapped.drain (h : s.Unwrapped) (n count : ℕ) :
    drainChecked n count s = some (drain n count s) ∧ (drain n count s).1.Unwrapped := by
  induction n generalizing s count with
  | zero => exact ⟨rfl, h⟩
  | succ n ih =>
    unfold drainChecked Pipe.drain
    cases hempty : s.isEmpty with
    | true => exact ⟨rfl, h⟩
    | false =>
      obtain ⟨htake, hnext⟩ := h.take hempty
      simp only [Option.bind_eq_bind, Option.bind_some, htake, Bool.false_eq_true, if_false]
      exact ih hnext (count + 1)

variable [DecidableEq P]

/-- A section that fits does what it does with counters that wrap, and nothing has wrapped. -/
theorem Unwrapped.section_ (h : s.Unwrapped) (p : P) (k : Call) (hfit : Fits k s) :
    sectionChecked p k s = some (text.section_ p k s) ∧ (text.section_ p k s).shared.Unwrapped := by
  cases k with
  | write n bs =>
    change pipewriteChecked p n bs s = some (pipewrite p n bs s) ∧
      (pipewrite p n bs s).shared.Unwrapped
    have hfill : fillChecked bs s = some (Pipe.fill bs s) ∧ (Pipe.fill bs s).1.Unwrapped := by
      by_cases hbs : bs = []
      · subst hbs
        exact ⟨rfl, h⟩
      · exact h.fill (hfit n bs rfl hbs) bs
    rw [shared_pipewrite]
    refine ⟨?_, hfill.2⟩
    unfold pipewriteChecked pipewrite
    rw [hfill.1]
    obtain ⟨s', rest⟩ := Pipe.fill bs s
    cases rest with
    | nil => rfl
    | cons b rest =>
      simp only [Option.bind_eq_bind, Option.bind_some]
      split_ifs <;> rfl
  | read n =>
    change pipereadChecked p n s = some (piperead p n s) ∧ (piperead p n s).shared.Unwrapped
    obtain ⟨hdrain, hnext⟩ := h.drain n.toNat 0
    unfold pipereadChecked piperead
    split_ifs
    · exact ⟨rfl, h⟩
    · exact ⟨rfl, h⟩
    · simp only [Option.bind_eq_bind, Option.bind_some, hdrain]
      exact ⟨trivial, hnext⟩
  | close writable =>
    refine ⟨rfl, h.sound.section_ p (.close writable), ?_⟩
    change (pipeclose writable s).shared.stored.length < 2 ^ 32
    unfold pipeclose
    split_ifs
    · exact h.stored
    · exact h.stored

/-- A section panics exactly if it does not fit. -/
theorem Unwrapped.panics_iff (h : s.Unwrapped) (p : P) (k : Call) :
    sectionChecked p k s = none ↔ ¬Fits k s := by
  constructor
  · intro hnone hfit
    rw [(h.section_ p k hfit).1] at hnone
    cases hnone
  · intro hnot
    unfold Fits at hnot
    push Not at hnot
    obtain ⟨n, bs, rfl, hbs, hover⟩ := hnot
    change pipewriteChecked p n bs s = none
    unfold pipewriteChecked
    rw [fillChecked_eq_none hbs hover.not_gt]
    rfl

end Pipe

/-! ## Whole runs -/

section Runs

variable {P : Type} [DecidableEq P] {s₀ s : State P (Pipe P) Chan Call}

/-- The machine with checked sections; `none` is the kernel after a panic. -/
def stepChecked : Option (State P (Pipe P) Chan Call) → Act P Call →
    Option (Option (State P (Pipe P) Chan Call))
  | none, _ => none
  | some s, .enter p k =>
    match s.status p with
    | .out => some ((Pipe.sectionChecked p k s.shared).map (s.ran p))
    | _ => none
  | some s, .resume p =>
    match s.status p with
    | .ready k => some ((Pipe.sectionChecked p k s.shared).map (s.ran p))
    | _ => none
  | some s, .rouse p => some (step Pipe.text s (.rouse p))

/-- The section that an action runs fits. -/
def Fitting (s : State P (Pipe P) Chan Call) (a : Act P Call) : Prop :=
  Disciplined (fun _ k x => Pipe.Fits k x) s a

/-- One step: it panics exactly if it does not fit, and else it is a step with counters that
wrap. -/
theorem stepChecked_iff (h : s.shared.Unwrapped) {a : Act P Call}
    {x : Option (State P (Pipe P) Chan Call)} (hstep : stepChecked (some s) a = some x) :
    (x = none ↔ ¬Fitting s a) ∧ ∀ s', x = some s' → step Pipe.text s a = some s' ∧
      s'.shared.Unwrapped := by
  -- a section of `p` with `k` to do
  have hsection : ∀ p k, (some x = some ((Pipe.sectionChecked p k s.shared).map (s.ran p))) →
      (x = none ↔ ¬Pipe.Fits k s.shared) ∧ ∀ s', x = some s' →
        s' = s.ran p (Pipe.text.section_ p k s.shared) ∧ s'.shared.Unwrapped := by
    intro p k hx
    obtain rfl := Option.some.inj hx
    refine ⟨?_, fun s' hs' => ?_⟩
    · rw [Option.map_eq_none_iff, h.panics_iff p k]
    · have hfit : Pipe.Fits k s.shared := by
        by_contra hnot
        rw [(h.panics_iff p k).2 hnot] at hs'
        cases hs'
      obtain ⟨heq, hnext⟩ := h.section_ p k hfit
      rw [heq, Option.map_some, Option.some.injEq] at hs'
      subst hs'
      exact ⟨rfl, hnext⟩
  cases a with
  | enter p k =>
    simp only [stepChecked] at hstep
    split at hstep
    · rename_i hout
      obtain ⟨hpanic, hgo⟩ := hsection p k hstep.symm
      refine ⟨hpanic, fun s' hs' => ?_⟩
      obtain ⟨rfl, hnext⟩ := hgo s' hs'
      refine ⟨?_, hnext⟩
      unfold step
      simp only [hout]
    · cases hstep
  | resume p =>
    simp only [stepChecked] at hstep
    split at hstep
    · rename_i k hready
      obtain ⟨hpanic, hgo⟩ := hsection p k hstep.symm
      refine ⟨hpanic.trans (not_congr ?_), fun s' hs' => ?_⟩
      · constructor
        · intro hfit k' hk'
          rw [hready] at hk'
          cases hk'
          exact hfit
        · exact fun hfit => hfit k hready
      · obtain ⟨rfl, hnext⟩ := hgo s' hs'
        refine ⟨?_, hnext⟩
        unfold step
        simp only [hready]
    · cases hstep
  | rouse p =>
    obtain rfl := Option.some.inj hstep
    refine ⟨?_, fun s' hs' => ⟨hs', ?_⟩⟩
    · constructor
      · intro hnone
        cases hnone
      · exact fun hnot => absurd trivial hnot
    cases hs'
    exact ⟨⟨h.sound.nread, h.sound.nwrite, h.sound.le, h.sound.room, h.sound.order, h.sound.kept⟩,
      h.stored⟩

/-- **Counters of a pipe**, over every run whose sections all fit, that is, in which no `pipewrite`
with bytes to store runs once `nread` is above `2^32 - 1 - PIPESIZE`: nothing has panicked, the run
is one with counters that wrap, and the next action panics exactly if it does not fit. -/
theorem counters_until {x : Option (State P (Pipe P) Chan Call)} (h₀ : s₀.shared.Fresh)
    (h : Reach stepChecked (fun x a => ∀ s, x = some s → Fitting s a) (some s₀) x) :
    ∃ s, x = some s ∧ Reach (step Pipe.text) Fitting s₀ s ∧
      ∀ a x', stepChecked (some s) a = some x' →
        (x' = none ↔ ¬Fitting s a) ∧ ∀ s', x' = some s' → step Pipe.text s a = some s' := by
  suffices hinv : ∃ s, x = some s ∧ Reach (step Pipe.text) Fitting s₀ s ∧ s.shared.Unwrapped by
    obtain ⟨s, hx, hreach, hunw⟩ := hinv
    refine ⟨s, hx, hreach, fun a x' hstep => ?_⟩
    obtain ⟨hpanic, hgo⟩ := stepChecked_iff hunw hstep
    exact ⟨hpanic, fun s' hs' => (hgo s' hs').1⟩
  refine h.invariant (I := fun x => ∃ s, x = some s ∧ Reach (step Pipe.text) Fitting s₀ s ∧
    s.shared.Unwrapped)
    ⟨s₀, rfl, .init, h₀.unwrapped⟩ ?_
  rintro _ a x' ⟨s, rfl, hreach, hunw⟩ hok hstep
  obtain ⟨hpanic, hgo⟩ := stepChecked_iff hunw hstep
  cases x' with
  | none => exact absurd (hok s rfl) (hpanic.1 rfl)
  | some s' =>
    obtain ⟨hnext, hunw'⟩ := hgo s' rfl
    exact ⟨s', rfl, .step hreach (hok s rfl) hnext, hunw'⟩

/-! ## Four gibibytes through a pipe -/

/-- A new pipe and one process. -/
def newPipe : State Unit (Pipe Unit) Chan Call where
  shared := ⟨fun _ => 0, 0, 0, true, true, fun _ => false, [], []⟩
  status _ := .out

/-- The process is between two calls, `n` bytes have passed, and none is left. -/
structure Passed (n : ℕ) (s : State Unit (Pipe Unit) Chan Call) : Prop where
  out : s.status () = .out
  unwrapped : s.shared.Unwrapped
  taken : s.shared.taken.length = n
  stored : s.shared.stored.length = n

theorem stepChecked_leave {s : State Unit (Pipe Unit) Chan Call} {k : Call} {x : Pipe Unit}
    {ws : List Chan} {r : ℤ} (hout : s.status () = .out) (hsec : Pipe.sectionChecked () k s.shared =
      some ⟨x, ws, .leave r⟩) :
    ∃ s', stepChecked (some s) (.enter () k) = some (some s') ∧ s'.status () = .out ∧
      s'.shared = x := by
  refine ⟨s.ran () ⟨x, ws, .leave r⟩, ?_, ?_, rfl⟩
  · simp only [stepChecked, hout, hsec, Option.map_some]
  · simp [State.ran, after]

theorem Passed.next {n : ℕ} {s : State Unit (Pipe Unit) Chan Call} (h : Passed n s)
    (hn : n + PIPESIZE < 2 ^ 32) :
    ∃ s₁ s₂, stepChecked (some s) (.enter () (.write 1 [0])) = some (some s₁) ∧
      stepChecked (some s₁) (.enter () (.read 1)) = some (some s₂) ∧ Passed (n + 1) s₂ := by
  have hfull : s.shared.isFull = false := by
    rw [Bool.eq_false_iff, ne_eq, h.unwrapped.sound.isFull_iff, h.taken, h.stored]
    change ¬n = n + 512
    omega
  have hfit : Pipe.Fits (.write 1 [0]) s.shared := by
    intro _ _ _ _
    rw [h.unwrapped.nread, h.taken]
    exact hn
  obtain ⟨hsec, hunw⟩ := h.unwrapped.section_ () (.write 1 [0]) hfit
  have hwrite : Pipe.text.section_ () (.write 1 [0]) s.shared = ⟨s.shared.put 0, [.nread],
    .leave 1⟩ := by
    simp [Pipe.text, Pipe.pipewrite, Pipe.fill, hfull]
  rw [hwrite] at hsec hunw
  obtain ⟨s₁, hs₁, hout₁, hx₁⟩ := stepChecked_leave h.out hsec
  have hlen : (s.shared.put 0).stored.length = n + 1 := by
    change (s.shared.stored ++ [0]).length = n + 1
    rw [List.length_append, h.stored]
    rfl
  have hempty : (s.shared.put 0).isEmpty = false := by
    rw [Bool.eq_false_iff, ne_eq, hunw.sound.isEmpty_iff, hlen]
    change ¬n + 1 = s.shared.taken.length
    rw [h.taken]
    omega
  obtain ⟨hsec₂, hunw₂⟩ := hunw.section_ () (.read 1) fun _ _ hk => by cases hk
  have hread : Pipe.text.section_ () (.read 1) (s.shared.put 0) = ⟨(s.shared.put 0).take, [.nwrite],
    .leave 1⟩ := by
    simp [Pipe.text, Pipe.piperead, Pipe.drain, hempty]
  rw [hread] at hsec₂ hunw₂
  rw [← hx₁] at hsec₂
  obtain ⟨s₂, hs₂, hout₂, hx₂⟩ := stepChecked_leave hout₁ hsec₂
  refine ⟨s₁, s₂, hs₁, hs₂, hout₂, ?_, ?_, ?_⟩
  · rw [hx₂, hx₁]
    exact hunw₂
  · rw [hx₂, hx₁]
    change (s.shared.taken ++ [_]).length = n + 1
    rw [List.length_append, h.taken]
    rfl
  · rw [hx₂, hx₁]
    exact hlen

/-- So any number of bytes passes, as long as the sum fits. -/
theorem passes (n : ℕ) (hn : n + PIPESIZE ≤ 2 ^ 32) :
    ∃ s, Reach stepChecked anyStep (some newPipe) (some s) ∧ Passed n s := by
  induction n with
  | zero => exact ⟨newPipe, .init, rfl, Pipe.Fresh.unwrapped ⟨rfl, rfl, rfl, rfl⟩, rfl, rfl⟩
  | succ n ih =>
    obtain ⟨s, hreach, hs⟩ := ih (by omega)
    obtain ⟨s₁, s₂, h₁, h₂, hnext⟩ := hs.next (by omega)
    exact ⟨s₂, .step (.step hreach trivial h₁) trivial h₂, hnext⟩

/-- After `2^32 - PIPESIZE` bytes, the next `pipewrite` panics. -/
theorem pipe_overflows : Reach stepChecked anyStep (some newPipe) none := by
  obtain ⟨s, hreach, hs⟩ := passes (2 ^ 32 - PIPESIZE) (by decide)
  refine .step (a := .enter () (.write 1 [0])) hreach trivial ?_
  have hpanic : Pipe.sectionChecked () (.write 1 [0]) s.shared = none := by
    rw [hs.unwrapped.panics_iff]
    intro hfit
    have hlt := hfit 1 [0] rfl (List.cons_ne_nil _ _)
    rw [hs.unwrapped.nread, hs.taken] at hlt
    exact absurd hlt (by decide)
  simp only [stepChecked, hs.out, hpanic, Option.map_none]

/-- One byte has passed. -/
theorem counters_until_one :
    ∃ x s, Reach stepChecked (fun x a => ∀ s, x = some s → Fitting s a) (some newPipe) x ∧
    x = some s ∧ s.shared.taken.length = 1 ∧ Reach (step Pipe.text) Fitting newPipe s := by
  have hnew : Passed 0 newPipe := ⟨rfl, Pipe.Fresh.unwrapped ⟨rfl, rfl, rfl, rfl⟩, rfl, rfl⟩
  obtain ⟨s₁, s₂, h₁, h₂, hs₂⟩ := hnew.next (by decide)
  have hreach :
    Reach stepChecked (fun x a => ∀ s, x = some s → Fitting s a) (some newPipe) (some s₂) := by
    refine .step (.step .init (fun s hs => ?_) h₁) (fun s hs => ?_) h₂
    · cases hs
      intro _ _ _ _
      decide
    · intro n bytes hk
      cases hk
  obtain ⟨s, hs, hrun, -⟩ := counters_until ⟨rfl, rfl, rfl, rfl⟩ hreach
  cases hs
  exact ⟨some s₂, s₂, hreach, rfl, hs₂.taken, hrun⟩

end Runs

end Xv6.Proc
