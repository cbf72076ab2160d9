import Xv6.Proc.Table

/-!
# The process tree

What the process table is for, without states of waiting and running: slots are free, being
made, in use or waiting to be reaped; a process in use has a parent; and each process that
exits is reaped once.  The table is shown to follow this tree in `Xv6.Proc.Reaping`.

* `Tree.Step` — the ways the tree changes.
* `Tree.Sound` — pids differ, parents are in use, forks are alone with their slot.
* `Tree.Logged` — who has exited is still there or has been reaped, once.
-/

namespace Xv6.Proc

open Lib List

/-- What a slot is used for. -/
inductive Life where
  /-- Nothing. -/
  | unused
  /-- A process being made. -/
  | embryo
  /-- A process. -/
  | active
  /-- A process that has exited. -/
  | zombie
  deriving DecidableEq

/-- The process tree. -/
@[ext]
structure Tree where
  /-- What each slot is used for. -/
  life : Slot → Life
  /-- Its pid. -/
  pid : Slot → ℕ
  /-- Its parent. -/
  parent : Slot → Option Slot
  /-- Its kernel stack. -/
  kstack : Slot → Option ℕ
  /-- Its page table. -/
  pgdir : Slot → Option ℕ
  /-- The fork a process is in. -/
  fork : Slot → Option (Phase × Slot)
  /-- The next pid. -/
  nextpid : ℕ
  /-- What has happened. -/
  log : Log

namespace Tree

open Function

/-- The tree changes. -/
inductive Step (T : Tree) : Tree → Prop
  /-- A fork takes a free slot. -/
  | alloc (p np : Slot) (hp : T.life p = .active) (hf : T.fork p = none)
      (hnp : T.life np = .unused) : Step T { T with
        life := update T.life np .embryo
        pid := update T.pid np T.nextpid
        fork := update T.fork p (some (.taken, np))
        nextpid := T.nextpid + 1 }
  /-- It gets a kernel stack for it. -/
  | stack (p np : Slot) (hf : T.fork p = some (.taken, np)) : Step T { T with
      kstack := update T.kstack np (some (T.pid np))
      fork := update T.fork p (some (.stacked, np)) }
  /-- It gets none and gives the slot back. -/
  | drop (p np : Slot) (hf : T.fork p = some (.taken, np)) : Step T { T with
      life := update T.life np .unused
      fork := update T.fork p none }
  /-- It gets a page table. -/
  | copy (p np : Slot) (hf : T.fork p = some (.stacked, np)) : Step T { T with
      pgdir := update T.pgdir np (some (T.pid np))
      fork := update T.fork p (some (.copied, np)) }
  /-- It gets none and gives the kernel stack and the slot back. -/
  | undo (p np : Slot) (hf : T.fork p = some (.stacked, np)) : Step T { T with
      life := update T.life np .unused
      kstack := update T.kstack np none
      fork := update T.fork p none
      log := T.log.kfree (T.kstack np) }
  /-- The slot gets a parent. -/
  | adopt (p np : Slot) (hf : T.fork p = some (.copied, np)) : Step T { T with
      parent := update T.parent np (some p)
      fork := update T.fork p (some (.adopted, np)) }
  /-- The child starts. -/
  | start (p np : Slot) (hf : T.fork p = some (.adopted, np)) : Step T { T with
      life := update T.life np .active
      fork := update T.fork p none }
  /-- A process exits; its children go to `init`. -/
  | exit (p : Slot) (hp : T.life p = .active) (hf : T.fork p = none) (hinit : p ≠ INITPROC) :
      Step T { T with
        life := update T.life p .zombie
        parent := fun i => if T.parent i = some p then some INITPROC else T.parent i
        log := T.log.exited (T.pid p) (T.parent p) }
  /-- A process is reaped by its parent. -/
  | reap (p i : Slot) (hi : T.life i = .zombie) (hp : T.parent i = some p) : Step T { T with
      life := update T.life i .unused
      pid := update T.pid i 0
      parent := update T.parent i none
      kstack := update T.kstack i none
      log := ((T.log.kfree (T.kstack i)).freevm (T.pgdir i)).reaped (T.pid i) p }

variable {T T' : Tree} {p np i q : Slot} {ph : Phase}

/-- What an update has not put there was there before. -/
theorem eq_of_update {α : Type} {f : Slot → α} {x y : α} (hx : x ≠ y) (h : update f q x i = y) :
    f i = y := by
  by_cases hi : i = q
  · subst hi
    exact absurd ((update_self i x f).symm.trans h) hx
  · exact (update_of_ne hi x f).symm.trans h

/-- A slot comes into use when its fork ends. -/
theorem Step.active (hs : T.Step T') (hi : T'.life i = .active) :
    T.life i = .active ∨ ∃ p, T.fork p = some (.adopted, i) := by
  cases hs with
  | alloc p np => exact .inl (eq_of_update (by decide) hi)
  | stack p np | copy p np | adopt p np => exact .inl hi
  | drop p np | undo p np => exact .inl (eq_of_update (by decide) hi)
  | start p np hf =>
    by_cases hin : i = np
    · exact .inr ⟨p, hin ▸ hf⟩
    · exact .inl ((update_of_ne hin _ T.life).symm.trans hi)
  | exit p => exact .inl (eq_of_update (by decide) hi)
  | reap p j => exact .inl (eq_of_update (by decide) hi)

/-- A slot is in the making since a fork has taken it. -/
theorem Step.embryo (hs : T.Step T') (hi : T'.life i = .embryo) : T.life i = .embryo ∨
    T.life i = .unused ∧ ∃ p, T.fork p = none ∧ T'.fork p = some (.taken, i) := by
  cases hs with
  | alloc p np hp hf hnp =>
    by_cases hin : i = np
    · subst hin
      exact .inr ⟨hnp, p, hf, update_self ..⟩
    · exact .inl ((update_of_ne hin _ T.life).symm.trans hi)
  | stack p np | copy p np | adopt p np => exact .inl hi
  | drop p np | undo p np => exact .inl (eq_of_update (by decide) hi)
  | start p np => exact .inl (eq_of_update (by decide) hi)
  | exit p => exact .inl (eq_of_update (by decide) hi)
  | reap p j => exact .inl (eq_of_update (by decide) hi)

/-! ## Pids -/

/-- Processes have different pids, which have been given out. -/
structure Numbered (T : Tree) : Prop where
  /-- They differ, -/
  inj : ∀ i j, T.life i ≠ .unused → T.life j ≠ .unused → T.pid i = T.pid j → i = j
  /-- are positive -/
  pos : ∀ i, T.life i ≠ .unused → 0 < T.pid i
  /-- and below the next one. -/
  lt : ∀ i, T.life i ≠ .unused → T.pid i < T.nextpid

theorem Numbered.mono (h : T.Numbered)
    (hused : ∀ i, T'.life i ≠ .unused → T.life i ≠ .unused ∧ T'.pid i = T.pid i)
    (hnext : T'.nextpid = T.nextpid) : T'.Numbered where
  inj i j hi hj he := by
    rw [(hused i hi).2, (hused j hj).2] at he
    exact h.inj i j (hused i hi).1 (hused j hj).1 he
  pos i hi := (hused i hi).2 ▸ h.pos i (hused i hi).1
  lt i hi := by
    rw [(hused i hi).2, hnext]
    exact h.lt i (hused i hi).1

/-- A slot that is taken gets the next pid. -/
theorem Numbered.alloc (h : T.Numbered) (hpid : T'.pid np = T.nextpid)
    (hused : ∀ i, i ≠ np → T'.life i ≠ .unused → T.life i ≠ .unused ∧ T'.pid i = T.pid i)
    (hpos : 0 < T.nextpid) (hnext : T'.nextpid = T.nextpid + 1) : T'.Numbered where
  inj i j hi hj he := by
    by_contra hij
    by_cases hin : i = np
    · subst hin
      have hjn := hused j (Ne.symm hij) hj
      have := h.lt j hjn.1
      omega
    · have hii := hused i hin hi
      by_cases hjn : j = np
      · subst hjn
        have := h.lt i hii.1
        omega
      · have hjj := hused j hjn hj
        exact hij (h.inj i j hii.1 hjj.1 (by omega))
  pos i hi := by
    by_cases hin : i = np
    · rw [hin, hpid]
      exact hpos
    · exact (hused i hin hi).2 ▸ h.pos i (hused i hin hi).1
  lt i hi := by
    by_cases hin : i = np
    · rw [hin, hpid, hnext]
      exact Nat.lt_succ_self _
    · have := h.lt i (hused i hin hi).1
      rw [(hused i hin hi).2, hnext]
      omega

/-! ## Slots and forks -/

/-- A slot has what its use asks for. -/
structure SlotOk (T : Tree) (i : Slot) : Prop where
  /-- A free slot has no parent. -/
  unused : T.life i = .unused → T.parent i = none
  /-- A parent is in use, and not its own. -/
  parent : ∀ q, T.parent i = some q → T.life q = .active ∧ i ≠ q
  /-- A process other than `init` has a parent, -/
  has_parent : T.life i = .active ∨ T.life i = .zombie → i ≠ INITPROC → T.parent i ≠ none
  /-- and every process a kernel stack -/
  has_kstack : T.life i = .active ∨ T.life i = .zombie → T.kstack i = some (T.pid i)
  /-- and a page table. -/
  has_pgdir : T.life i = .active ∨ T.life i = .zombie → T.pgdir i = some (T.pid i)

/-- A fork has filled its slot as far as it says. -/
structure ForkOk (T : Tree) (p : Slot) (ph : Phase) (np : Slot) : Prop where
  /-- The forking process is in use. -/
  forker : T.life p = .active
  /-- The slot is being made. -/
  embryo : T.life np = .embryo
  /-- It has no parent at first, -/
  orphan : ph ≠ .adopted → T.parent np = none
  /-- then the forking process. -/
  adopted : ph = .adopted → T.parent np = some p
  /-- It gets its kernel stack -/
  stacked : ph ≠ .taken → T.kstack np = some (T.pid np)
  /-- and its page table. -/
  copied : ph = .copied ∨ ph = .adopted → T.pgdir np = some (T.pid np)

/-- A slot is as it was. -/
structure Same (T T' : Tree) (i : Slot) : Prop where
  life : T'.life i = T.life i
  pid : T'.pid i = T.pid i
  parent : T'.parent i = T.parent i
  kstack : T'.kstack i = T.kstack i
  pgdir : T'.pgdir i = T.pgdir i

theorem SlotOk.congr (h : T.SlotOk i) (hs : Same T T' i)
    (hlife : ∀ q, T.parent i = some q → T'.life q = T.life q) : T'.SlotOk i where
  unused hl := hs.parent ▸ h.unused (hs.life ▸ hl)
  parent q hq := by
    have hq' : T.parent i = some q := hs.parent ▸ hq
    exact ⟨(hlife q hq').trans (h.parent q hq').1, (h.parent q hq').2⟩
  has_parent hl hne := by
    rw [hs.parent]
    rw [hs.life] at hl
    exact h.has_parent hl hne
  has_kstack hl := by
    rw [hs.kstack, hs.pid]
    rw [hs.life] at hl
    exact h.has_kstack hl
  has_pgdir hl := by
    rw [hs.pgdir, hs.pid]
    rw [hs.life] at hl
    exact h.has_pgdir hl

/-- A slot that holds no process needs little. -/
theorem SlotOk.idle (hl : T.life i = .unused ∨ T.life i = .embryo)
    (hunused : T.life i = .unused → T.parent i = none)
    (hparent : ∀ q, T.parent i = some q → T.life q = .active ∧ i ≠ q) : T.SlotOk i := by
  have hno : ¬ (T.life i = .active ∨ T.life i = .zombie) := by
    rcases hl with hl | hl <;> rw [hl] <;> decide
  exact ⟨hunused, hparent, fun hu => absurd hu hno, fun hu => absurd hu hno,
    fun hu => absurd hu hno⟩

theorem ForkOk.congr (h : T.ForkOk p ph np) (hp : T'.life p = T.life p) (hs : Same T T' np) :
    T'.ForkOk p ph np where
  forker := hp.trans h.forker
  embryo := hs.life.trans h.embryo
  orphan hph := hs.parent.trans (h.orphan hph)
  adopted hph := hs.parent.trans (h.adopted hph)
  stacked hph := by
    rw [hs.kstack, hs.pid]
    exact h.stacked hph
  copied hph := by
    rw [hs.pgdir, hs.pid]
    exact h.copied hph

/-- The tree is in order. -/
structure Sound (T : Tree) : Prop where
  /-- Pids, -/
  numbered : T.Numbered
  /-- slots -/
  slots : ∀ i, T.SlotOk i
  /-- and forks are; -/
  forks : ∀ p ph np, T.fork p = some (ph, np) → T.ForkOk p ph np
  /-- no two forks have the same slot, -/
  fork_inj : ∀ p q ph ph' np, T.fork p = some (ph, np) → T.fork q = some (ph', np) → p = q
  /-- and `init` stays -/
  init : T.life INITPROC = .active
  /-- without a parent. -/
  init_parent : T.parent INITPROC = none
  /-- Some pid has been given out. -/
  next_pos : 0 < T.nextpid

/-- A change to one slot that is not in use, and to the forks of that slot. -/
theorem Sound.touch (h : T.Sound) (hnp : T.life np ≠ .active) (hsame : ∀ i, i ≠ np → Same T T' i)
    (hfork : ∀ q ph m, T'.fork q = some (ph, m) → m ≠ np → T.fork q = some (ph, m))
    (hmine : ∀ q ph, T'.fork q = some (ph, np) → q = p ∧ T'.ForkOk q ph np)
    (hnum : T'.Numbered) (hslot : T'.SlotOk np) (hnext : T.nextpid ≤ T'.nextpid) : T'.Sound where
  numbered := hnum
  slots i := by
    by_cases hi : i = np
    · exact hi ▸ hslot
    · refine (h.slots i).congr (hsame i hi) fun q hq => (hsame q ?_).life
      -- a parent is in use, so it is not the slot that changes
      rintro rfl
      exact hnp ((h.slots i).parent q hq).1
  forks q ph m hq := by
    by_cases hm : m = np
    · subst hm
      exact (hmine q ph hq).2
    · have hok := h.forks q ph m (hfork q ph m hq hm)
      refine hok.congr (hsame q ?_).life (hsame m hm)
      rintro rfl
      exact hnp hok.forker
  fork_inj q r ph ph' m hq hr := by
    by_cases hm : m = np
    · subst hm
      exact (hmine q ph hq).1.trans (hmine r ph' hr).1.symm
    · exact h.fork_inj q r ph ph' m (hfork q ph m hq hm) (hfork r ph' m hr hm)
  init := by
    refine ((hsame _ ?_).life).trans h.init
    rintro rfl
    exact hnp h.init
  init_parent := by
    refine ((hsame _ ?_).parent).trans h.init_parent
    rintro rfl
    exact hnp h.init
  next_pos := lt_of_lt_of_le h.next_pos hnext

/-! ## Each change -/

/-- Only the slot of an update changes. -/
theorem update_ne {α : Type} {f : Slot → α} {v : α} (hi : i ≠ np) : update f np v i = f i :=
  update_of_ne hi v f

/-- The forks after one of them has moved on with its slot. -/
theorem fork_update (h : T.Sound) {ph' : Phase} (hf : T.fork p = some (ph', np))
    {F : Option (Phase × Slot)} (hF : ∀ ph m, F = some (ph, m) → m = np) :
    (∀ q ph m, update T.fork p F q = some (ph, m) → m ≠ np → T.fork q = some (ph, m)) ∧
      ∀ q ph, update T.fork p F q = some (ph, np) → q = p ∧ F = some (ph, np) := by
  refine ⟨fun q ph m hq hm => ?_, fun q ph hq => ?_⟩
  · by_cases hqp : q = p
    · subst hqp
      rw [update_self] at hq
      exact absurd (hF ph m hq) hm
    · rwa [update_of_ne hqp] at hq
  · by_cases hqp : q = p
    · subst hqp
      rw [update_self] at hq
      exact ⟨rfl, hq⟩
    · rw [update_of_ne hqp] at hq
      exact absurd (h.fork_inj q p ph ph' np hq hf) hqp

theorem Sound.alloc (h : T.Sound) (hp : T.life p = .active) (hf : T.fork p = none)
    (hnp : T.life np = .unused) : Sound { T with
      life := update T.life np .embryo
      pid := update T.pid np T.nextpid
      fork := update T.fork p (some (.taken, np))
      nextpid := T.nextpid + 1 } := by
  have hpn : p ≠ np := by
    rintro rfl
    rw [hp] at hnp
    cases hnp
  have hfree : ∀ q ph, T.fork q ≠ some (ph, np) := fun q ph hq => by
    have := (h.forks q ph np hq).embryo
    rw [hnp] at this
    cases this
  have hparent : T.parent np = none := (h.slots np).unused hnp
  refine h.touch (p := p) (by rw [hnp]; decide)
    (fun i hi => ⟨update_ne hi, update_ne hi, rfl, rfl, rfl⟩) (fun q ph m hq hm => ?_)
    (fun q ph hq => ?_) ?_ ?_ (Nat.le_succ _)
  · by_cases hqp : q = p
    · subst hqp
      cases (update_self q _ T.fork).symm.trans hq
      exact absurd rfl hm
    · exact (update_of_ne hqp _ _).symm.trans hq
  · by_cases hqp : q = p
    · subst hqp
      cases (update_self q _ T.fork).symm.trans hq
      refine ⟨rfl, (update_ne hpn).trans hp, update_self .., fun _ => hparent, fun hph => ?_,
        fun hph => absurd rfl hph, fun hph => ?_⟩
      · cases hph
      · rcases hph with hph | hph <;> cases hph
    · exact absurd ((update_of_ne hqp _ _).symm.trans hq) (hfree q ph)
  · exact h.numbered.alloc (update_self ..)
      (fun i hi hl => ⟨fun hu => hl ((update_ne hi).trans hu), update_ne hi⟩) h.next_pos rfl
  · exact .idle (Or.inr (update_self ..)) (fun _ => hparent) fun q hq => by
      cases hparent.symm.trans hq

/-- A fork moves on: its slot stays in the making. -/
theorem Sound.advance (h : T.Sound) {ph' : Phase} (hf : T.fork p = some (ph', np))
    (hsame : ∀ i, i ≠ np → Same T T' i) (hlife : T'.life np = T.life np)
      (hpid : T'.pid np = T.pid np)
    (hnext : T'.nextpid = T.nextpid) (hfork : T'.fork = update T.fork p (some (ph, np)))
    (hparent : T'.parent np = if ph = .adopted then some p else none)
    (hstack : ph ≠ .taken → T'.kstack np = some (T.pid np))
    (hdir : ph = .copied ∨ ph = .adopted → T'.pgdir np = some (T.pid np)) : T'.Sound := by
  have hok := h.forks p ph' np hf
  have hpn : p ≠ np := by
    rintro rfl
    exact absurd (hok.forker.symm.trans hok.embryo) (by decide)
  obtain ⟨hold, hmine⟩ := fork_update h hf (F := some (ph, np)) (by
    rintro ph m hF
    cases hF
    rfl)
  refine h.touch (p := p) (by rw [hok.embryo]; decide) hsame (fun q ph m hq => ?_)
    (fun q r hq => ?_) ?_ ?_
    hnext.ge
  · rw [hfork] at hq
    exact hold q ph m hq
  · rw [hfork] at hq
    obtain ⟨rfl, hF⟩ := hmine q r hq
    cases hF
    refine ⟨rfl, (hsame q hpn).life.trans hok.forker, hlife.trans hok.embryo, fun hph => ?_,
      fun hph => ?_, fun hph => ?_, fun hph => ?_⟩
    · rw [hparent, if_neg hph]
    · rw [hparent, if_pos hph]
    · rw [hpid, hstack hph]
    · rw [hpid, hdir hph]
  · refine h.numbered.mono (fun i hi => ?_) hnext
    by_cases hin : i = np
    · subst hin
      exact ⟨hlife ▸ hi, hpid⟩
    · exact ⟨(hsame i hin).life ▸ hi, (hsame i hin).pid⟩
  · have hl : T'.life np = .embryo := hlife.trans hok.embryo
    refine .idle (Or.inr hl) (fun hu => ?_) fun q hq => ?_
    · cases hl.symm.trans hu
    · rw [hparent] at hq
      split_ifs at hq
      cases hq
      exact ⟨(hsame p hpn).life.trans hok.forker, hpn.symm⟩

/-- A slot that is not in use, and whose fork if it has one ends, is given back. -/
theorem Sound.release (h : T.Sound) (hnp : T.life np ≠ .active)
    (hsame : ∀ i, i ≠ np → Same T T' i) (hlife : T'.life np = .unused)
      (hparent : T'.parent np = none)
    (hnext : T'.nextpid = T.nextpid) (hfork : ∀ q ph m, T'.fork q = some (ph, m) →
      T.fork q = some (ph, m))
    (hnone : ∀ q ph, T'.fork q ≠ some (ph, np)) : T'.Sound := by
  refine h.touch (p := np) hnp hsame (fun q ph m hq _ => hfork q ph m hq)
    (fun q ph hq => absurd hq (hnone q ph)) ?_ ?_ hnext.ge
  · refine h.numbered.mono (fun i hi => ?_) hnext
    by_cases hin : i = np
    · subst hin
      exact absurd hlife hi
    · exact ⟨(hsame i hin).life ▸ hi, (hsame i hin).pid⟩
  · exact .idle (Or.inl hlife) (fun _ => hparent) fun q hq => by cases hparent.symm.trans hq

/-- The forks after one of them has ended. -/
theorem fork_ended (h : T.Sound) (hf : T.fork p = some (ph, np)) :
    (∀ q ph m, update T.fork p none q = some (ph, m) → T.fork q = some (ph, m)) ∧
      ∀ q ph, update T.fork p none q ≠ some (ph, np) := by
  refine ⟨fun q ph m hq => ?_, fun q ph' hq => ?_⟩
  · by_cases hqp : q = p
    · subst hqp
      cases (update_self q none T.fork).symm.trans hq
    · exact (update_of_ne hqp _ _).symm.trans hq
  · obtain ⟨-, hF⟩ := (fork_update h hf (F := none) (by rintro ph m hF; cases hF)).2 q ph' hq
    cases hF

theorem Sound.start (h : T.Sound) (hf : T.fork p = some (.adopted, np)) : Sound { T with
    life := update T.life np .active
    fork := update T.fork p none } := by
  have hok := h.forks p .adopted np hf
  have hpn : p ≠ np := by
    rintro rfl
    exact absurd (hok.forker.symm.trans hok.embryo) (by decide)
  obtain ⟨hold, hnone⟩ := fork_ended h hf
  have hsame : ∀ i, i ≠ np → Same T { T with
      life := update T.life np .active
      fork := update T.fork p none } i := fun i hi => ⟨update_ne hi, rfl, rfl, rfl, rfl⟩
  refine h.touch (p := p) (by rw [hok.embryo]; decide) hsame (fun q ph m hq _ => hold q ph m hq)
    (fun q ph hq => absurd hq (hnone q ph)) ?_ ?_ le_rfl
  · refine h.numbered.mono (fun i hi => ⟨?_, rfl⟩) rfl
    by_cases hin : i = np
    · rw [hin, hok.embryo]
      decide
    · rwa [← update_ne (f := T.life) (v := Life.active) hin]
  · refine ⟨fun hu => ?_, fun q hq => ?_, fun _ _ => ?_, fun _ => ?_, fun _ => ?_⟩
    · exact absurd ((update_self np Life.active T.life).symm.trans hu) (by decide)
    · cases (hok.adopted rfl).symm.trans hq
      exact ⟨(update_ne hpn).trans hok.forker, hpn.symm⟩
    · rw [hok.adopted rfl]
      exact Option.some_ne_none p
    · exact hok.stacked (by decide)
    · exact hok.copied (Or.inr rfl)

/-- A process exits: its children become children of `init`. -/
theorem Sound.exit (h : T.Sound) (hp : T.life p = .active) (hf : T.fork p = none)
    (hinit : p ≠ INITPROC) : Sound { T with
      life := update T.life p .zombie
      parent := fun i => if T.parent i = some p then some INITPROC else T.parent i
      log := T.log.exited (T.pid p) (T.parent p) } := by
  have hlife : ∀ i, i ≠ p → update T.life p .zombie i = T.life i := fun i hi => update_ne hi
  have hpp : T.parent p ≠ some p := fun he => ((h.slots p).parent p he).2 rfl
  refine ⟨?_, fun i => ?_, fun q ph m hq => ?_, h.fork_inj, ?_, ?_, h.next_pos⟩
  · refine h.numbered.mono (fun i hi => ⟨?_, rfl⟩) rfl
    by_cases hip : i = p
    · rw [hip, hp]
      decide
    · rwa [← hlife i hip]
  · have hold := h.slots i
    have hdone : ∀ (x : Life), (x = .active ∨ x = .zombie) → update T.life p .zombie i = x →
        T.life i = .active ∨ T.life i = .zombie := fun x hx hu => by
      by_cases hip : i = p
      · exact .inl (hip ▸ hp)
      · rw [← hlife i hip, hu]
        exact hx
    refine ⟨fun hu => ?_, fun q hq => ?_, fun hu hne => ?_,
      fun hu => hold.has_kstack (hdone _ hu rfl), fun hu => hold.has_pgdir (hdone _ hu rfl)⟩
    · have hip : i ≠ p := by
        rintro rfl
        exact absurd ((update_self i Life.zombie T.life).symm.trans hu) (by decide)
      have hnone := hold.unused ((hlife i hip).symm.trans hu)
      simp only [hnone, reduceCtorEq, if_false]
    · simp only at hq
      split_ifs at hq with hip
      · -- a child of the process that exits goes to `init`
        cases hq
        refine ⟨(hlife _ hinit.symm).trans h.init, ?_⟩
        rintro rfl
        rw [h.init_parent] at hip
        cases hip
      · have hqp : q ≠ p := by
          rintro rfl
          exact hip hq
        exact ⟨(hlife q hqp).trans (hold.parent q hq).1, (hold.parent q hq).2⟩
    · have := hold.has_parent (hdone _ hu rfl) hne
      simp only
      split_ifs
      · exact Option.some_ne_none _
      · exact this
  · have hok := h.forks q ph m hq
    have hqp : q ≠ p := by
      rintro rfl
      rw [hf] at hq
      cases hq
    have hmp : m ≠ p := by
      rintro rfl
      exact absurd (hp.symm.trans hok.embryo) (by decide)
    have hkeep : (if T.parent m = some p then some INITPROC else T.parent m) = T.parent m := by
      refine if_neg fun he => ?_
      cases ph with
      | adopted => exact hqp (Option.some.inj ((hok.adopted rfl).symm.trans he))
      | taken | stacked | copied => exact absurd ((hok.orphan (by decide)).symm.trans he) (by simp)
    exact hok.congr (hlife q hqp) ⟨hlife m hmp, rfl, hkeep, rfl, rfl⟩
  · exact (hlife _ hinit.symm).trans h.init
  · simp only [h.init_parent, reduceCtorEq, if_false]

/-- Every change keeps the tree in order. -/
theorem Sound.step (h : T.Sound) (hs : T.Step T') : T'.Sound := by
  cases hs with
  | alloc p np hp hf hnp => exact h.alloc hp hf hnp
  | stack p np hf =>
    have hok := h.forks p _ np hf
    exact h.advance hf (fun i hi => ⟨rfl, rfl, rfl, update_ne hi, rfl⟩) rfl rfl rfl rfl
      (hok.orphan (by decide)) (fun _ => update_self ..) fun hph => by rcases hph with hph | hph
        <;> cases hph
  | drop p np hf =>
    have hok := h.forks p _ np hf
    exact h.release (by rw [hok.embryo]; decide) (fun i hi => ⟨update_ne hi, rfl, rfl, rfl, rfl⟩)
      (update_self ..) (hok.orphan (by decide)) rfl (fork_ended h hf).1 (fork_ended h hf).2
  | copy p np hf =>
    have hok := h.forks p _ np hf
    exact h.advance hf (fun i hi => ⟨rfl, rfl, rfl, rfl, update_ne hi⟩) rfl rfl rfl rfl
      (hok.orphan (by decide)) (fun _ => hok.stacked (by decide)) fun _ => update_self ..
  | undo p np hf =>
    have hok := h.forks p _ np hf
    exact h.release (by rw [hok.embryo]; decide)
      (fun i hi => ⟨update_ne hi, rfl, rfl, update_ne hi, rfl⟩)
      (update_self ..) (hok.orphan (by decide)) rfl (fork_ended h hf).1 (fork_ended h hf).2
  | adopt p np hf =>
    have hok := h.forks p _ np hf
    exact h.advance hf (fun i hi => ⟨rfl, rfl, update_ne hi, rfl, rfl⟩) rfl rfl rfl rfl
      (update_self ..) (fun _ => hok.stacked (by decide)) fun _ => hok.copied (Or.inl rfl)
  | start p np hf => exact h.start hf
  | exit p hp hf hinit => exact h.exit hp hf hinit
  | reap p i hi hp =>
    refine h.release (by rw [hi]; decide)
      (fun j hj => ⟨update_ne hj, update_ne hj, update_ne hj, update_ne hj, rfl⟩) (update_self ..)
      (update_self ..) rfl (fun _ _ _ hq => hq) fun q ph hq => ?_
    exact absurd (hi.symm.trans (h.forks q ph i hq).embryo) (by decide)

/-! ## Old pids -/

/-- The pid a free slot still has is not that of a process. -/
structure Retired (T : Tree) : Prop where
  /-- Pids have been given out. -/
  lt : ∀ i, T.pid i < T.nextpid
  /-- Those of free slots are not in use. -/
  ne : ∀ i j, T.life i = .unused → T.life j ≠ .unused → T.pid i ≠ T.pid j

/-- No slot is taken or given back. -/
theorem Retired.congr (h : T.Retired) (hlife : ∀ i, T'.life i = .unused ↔ T.life i = .unused)
    (hpid : T'.pid = T.pid) (hnext : T'.nextpid = T.nextpid) : T'.Retired where
  lt i := by
    rw [hpid, hnext]
    exact h.lt i
  ne i j hi hj := by
    rw [hpid]
    exact h.ne i j ((hlife i).1 hi) fun hu => hj ((hlife j).2 hu)

/-- A slot is given back, with a pid that nobody else has. -/
theorem Retired.release (h : T.Retired) (np : Slot) (hnp : ∀ j, j ≠ np → T.life j ≠ .unused →
    T'.pid np ≠ T.pid j)
    (hlt : T'.pid np < T.nextpid) (hself : T'.life np = .unused)
    (hlife : ∀ i, i ≠ np → T'.life i = T.life i) (hpid : ∀ i, i ≠ np → T'.pid i = T.pid i)
    (hnext : T'.nextpid = T.nextpid) : T'.Retired where
  lt i := by
    rw [hnext]
    by_cases hin : i = np
    · exact hin ▸ hlt
    · exact hpid i hin ▸ h.lt i
  ne i j hi hj := by
    have hjn : j ≠ np := by
      rintro rfl
      exact hj hself
    rw [hlife j hjn] at hj
    rw [hpid j hjn]
    by_cases hin : i = np
    · exact hin ▸ hnp j hjn hj
    · rw [hlife i hin] at hi
      exact hpid i hin ▸ h.ne i j hi hj

theorem Retired.step (h : T.Retired) (hs : T.Sound) (hstep : T.Step T') : T'.Retired := by
  -- a change of one slot between two uses
  have hiff : ∀ {j : Slot} {x : Life}, T.life j ≠ .unused → x ≠ .unused →
      ∀ i, update T.life j x i = .unused ↔ T.life i = .unused := by
    intro j x hj hx i
    by_cases hij : i = j
    · rw [hij, update_self]
      exact iff_of_false hx hj
    · rw [update_ne hij]
  have hown : ∀ {p ph np}, T.fork p = some (ph, np) → T.life np ≠ .unused := fun hf => by
    rw [(hs.forks _ _ _ hf).embryo]
    decide
  cases hstep with
  | alloc p np hp hf hnp =>
    refine ⟨fun i => ?_, fun i j hi hj => ?_⟩
    · change update T.pid np T.nextpid i < T.nextpid + 1
      by_cases hin : i = np
      · rw [hin, update_self]
        exact Nat.lt_succ_self _
      · rw [update_ne hin]
        exact Nat.lt_succ_of_lt (h.lt i)
    · change update T.pid np T.nextpid i ≠ update T.pid np T.nextpid j
      have hin : i ≠ np := by
        rintro rfl
        cases (update_self i Life.embryo T.life).symm.trans hi
      have hi' : T.life i = .unused := (update_ne hin).symm.trans hi
      rw [update_ne hin]
      by_cases hjn : j = np
      · rw [hjn, update_self]
        exact (h.lt i).ne
      · rw [update_ne hjn]
        exact h.ne i j hi' fun hu => hj ((update_ne hjn).trans hu)
  | stack p np hf | copy p np hf | adopt p np hf => exact h.congr (fun _ => Iff.rfl) rfl rfl
  | drop p np hf =>
    exact h.release np (fun j hj hu he => hj (hs.numbered.inj j np hu (hown hf) he.symm)) (h.lt np)
      (update_self ..) (fun i hi => update_ne hi) (fun _ _ => rfl) rfl
  | undo p np hf =>
    exact h.release np (fun j hj hu he => hj (hs.numbered.inj j np hu (hown hf) he.symm)) (h.lt np)
      (update_self ..) (fun i hi => update_ne hi) (fun _ _ => rfl) rfl
  | start p np hf => exact h.congr (hiff (hown hf) (by decide)) rfl rfl
  | exit p hp hf hinit => exact h.congr (hiff (by rw [hp]; decide) (by decide)) rfl rfl
  | reap p i hi hp =>
    have hzero : update T.pid i 0 i = 0 := update_self ..
    refine h.release i (fun j hj hu => ?_) ?_ (update_self ..) (fun j hj => update_ne hj)
      (fun j hj => update_ne hj) rfl
    · change update T.pid i 0 i ≠ T.pid j
      rw [hzero]
      exact (hs.numbered.pos j hu).ne
    · change update T.pid i 0 i < T.nextpid
      rw [hzero]
      exact hs.next_pos

/-! ## The log -/

/-- The log tells what has become of everybody. -/
structure Logged (T : Tree) : Prop where
  /-- Nobody exits twice. -/
  exits_nodup : (T.log.exits.map Exit.pid).Nodup
  /-- Nobody is returned twice. -/
  reaps_nodup : (T.log.reaps.map Reap.pid).Nodup
  /-- No kernel stack is freed twice. -/
  stacks_nodup : T.log.freedStacks.Nodup
  /-- Pids in the log have been given out. -/
  exits_lt : ∀ e ∈ T.log.exits, e.pid < T.nextpid
  /-- So has the name of a kernel stack. -/
  stacks_lt : ∀ d ∈ T.log.freedStacks, d < T.nextpid
  /-- Who has exited is still there or has been returned. -/
  exited : ∀ e ∈ T.log.exits,
    (∃ i, T.life i = .zombie ∧ T.pid i = e.pid) ∨ e.pid ∈ T.log.reaps.map Reap.pid
  /-- Who is still there belongs to the parent of that time, or to `init`. -/
  zombie : ∀ i, T.life i = .zombie → ∃ e ∈ T.log.exits, e.pid = T.pid i ∧
    (T.parent i = e.parent ∨ T.parent i = some INITPROC)
  /-- Who has been returned has been returned to one of the two. -/
  reaped : ∀ r ∈ T.log.reaps, ∃ e ∈ T.log.exits, e.pid = r.pid ∧
    (e.parent = some r.caller ∨ r.caller = INITPROC)
  /-- Nobody who is there has been returned. -/
  unreaped : ∀ i, T.life i ≠ .unused → T.pid i ∉ T.log.reaps.map Reap.pid
  /-- Nobody in use has exited. -/
  unexited : ∀ i, T.life i = .embryo ∨ T.life i = .active → T.pid i ∉ T.log.exits.map Exit.pid
  /-- Nobody who is there has lost the kernel stack. -/
  unfreed : ∀ i, T.life i ≠ .unused → T.pid i ∉ T.log.freedStacks
  /-- Who has been returned has lost it, -/
  stack_of_reap : ∀ d ∈ T.log.reaps.map Reap.pid, d ∈ T.log.freedStacks
  /-- and exactly the page tables of these have been freed. -/
  tables : T.log.freedTables = T.log.reaps.map Reap.pid

/-- A pid that has been returned has been given out. -/
theorem Logged.reap_lt (h : T.Logged) {d : ℕ} (hd : d ∈ T.log.reaps.map Reap.pid) : d < T.nextpid :=
  h.stacks_lt d (h.stack_of_reap d hd)

/-- Nothing is logged: those that have exited stay, and new processes have the next pid. -/
theorem Logged.quiet (h : T.Logged) (hlog : T'.log = T.log) (hnext : T.nextpid ≤ T'.nextpid)
    (hzombie : ∀ i, T'.life i = .zombie ↔ T.life i = .zombie)
    (hsame : ∀ i, T.life i = .zombie → T'.pid i = T.pid i ∧ T'.parent i = T.parent i)
    (hused : ∀ i, T'.life i ≠ .unused →
      (T.life i ≠ .unused ∧ T'.pid i = T.pid i) ∨ T'.pid i = T.nextpid) : T'.Logged where
  exits_nodup := hlog ▸ h.exits_nodup
  reaps_nodup := hlog ▸ h.reaps_nodup
  stacks_nodup := hlog ▸ h.stacks_nodup
  exits_lt e he := lt_of_lt_of_le (h.exits_lt e (hlog ▸ he)) hnext
  stacks_lt d hd := lt_of_lt_of_le (h.stacks_lt d (hlog ▸ hd)) hnext
  exited e he := by
    rw [hlog] at he ⊢
    refine (h.exited e he).imp_left fun ⟨i, hi, hpid⟩ => ⟨i, (hzombie i).2 hi, ?_⟩
    rw [(hsame i hi).1, hpid]
  zombie i hi := by
    have hi' := (hzombie i).1 hi
    rw [hlog, (hsame i hi').1, (hsame i hi').2]
    exact h.zombie i hi'
  reaped r hr := by
    rw [hlog] at hr ⊢
    exact h.reaped r hr
  unreaped i hi := by
    rw [hlog]
    rcases hused i hi with ⟨hu, hpid⟩ | hpid
    · rw [hpid]
      exact h.unreaped i hu
    · rw [hpid]
      exact fun hd => lt_irrefl _ (h.reap_lt hd)
  unexited i hi := by
    rw [hlog]
    have hne : T'.life i ≠ .unused := by rcases hi with hi | hi <;> rw [hi] <;> decide
    rcases hused i hne with ⟨hu, hpid⟩ | hpid
    · rw [hpid]
      refine h.unexited i ?_
      have hnz : T.life i ≠ .zombie := fun hz => by
        rw [(hzombie i).2 hz] at hi
        rcases hi with hi | hi <;> cases hi
      cases hl : T.life i with
      | unused => exact absurd hl hu
      | embryo => exact .inl rfl
      | active => exact .inr rfl
      | zombie => exact absurd hl hnz
    · rw [hpid]
      intro hd
      obtain ⟨e, he, hpe⟩ := mem_map.1 hd
      have := h.exits_lt e he
      omega
  unfreed i hi := by
    rw [hlog]
    rcases hused i hi with ⟨hu, hpid⟩ | hpid
    · rw [hpid]
      exact h.unfreed i hu
    · rw [hpid]
      exact fun hd => lt_irrefl _ (h.stacks_lt _ hd)
  stack_of_reap := hlog ▸ h.stack_of_reap
  tables := hlog ▸ h.tables

/-- One slot changes that neither was nor becomes one of a process that has exited. -/
theorem Logged.touch (h : T.Logged) (hlog : T'.log = T.log) (hnext : T.nextpid ≤ T'.nextpid)
    (hsame : ∀ i, i ≠ np → Same T T' i) (hold : T.life np ≠ .zombie) {x : Life}
    (hnew : T'.life np = x) (hx : x ≠ .zombie)
    (hused : T'.life np ≠ .unused →
      (T.life np ≠ .unused ∧ T'.pid np = T.pid np) ∨ T'.pid np = T.nextpid) : T'.Logged := by
  have hne : ∀ i, T.life i = .zombie → i ≠ np := by
    rintro i hi rfl
    exact hold hi
  refine h.quiet hlog hnext (fun i => ?_) (fun i hi => ⟨(hsame i (hne i hi)).pid,
    (hsame i (hne i hi)).parent⟩) fun i hi => ?_
  · by_cases hin : i = np
    · subst hin
      exact iff_of_false (hnew ▸ hx) hold
    · rw [(hsame i hin).life]
  · by_cases hin : i = np
    · subst hin
      exact hused hi
    · exact .inl ⟨(hsame i hin).life ▸ hi, (hsame i hin).pid⟩

/-- A slot in use after one was released is another, and was in use. -/
theorem of_released (hi : update T.life np .unused i ≠ .unused) : i ≠ np ∧ T.life i ≠ .unused := by
  have hin : i ≠ np := by
    rintro rfl
    exact hi (update_self ..)
  exact ⟨hin, fun hu => hi ((update_ne hin).trans hu)⟩

theorem nodup_concat {α : Type} {l : List α} {a : α} (hl : l.Nodup) (ha : a ∉ l) :
    (l ++ [a]).Nodup :=
  (perm_append_singleton a l).nodup_iff.2 (nodup_cons.2 ⟨ha, hl⟩)

/-- A fork that fails frees the kernel stack of its slot. -/
theorem Logged.undo (h : T.Logged) (hs : T.Sound) (hf : T.fork p = some (.stacked, np)) :
    Logged { T with
      life := update T.life np .unused
      kstack := update T.kstack np none
      fork := update T.fork p none
      log := T.log.kfree (T.kstack np) } := by
  have hok := hs.forks p _ np hf
  have hlive : T.life np ≠ .unused := by rw [hok.embryo]; decide
  have hrest : ∀ i, update T.life np .unused i ≠ .unused → i ≠ np ∧ T.life i ≠ .unused :=
    fun _ hi => of_released hi
  have hlife : ∀ i x, x ≠ .unused → update T.life np .unused i = x → T.life i = x :=
    fun _ _ hx hi => eq_of_update hx.symm hi
  have hstack : (T.log.kfree (T.kstack np)).freedStacks = T.log.freedStacks ++ [T.pid np] := by
    rw [hok.stacked (by decide)]
    rfl
  refine ⟨h.exits_nodup, h.reaps_nodup, ?_, h.exits_lt, fun d hd => ?_, fun e he => ?_,
    fun i hi => ?_,
    h.reaped, fun i hi => h.unreaped i (hrest i hi).2, fun i hi => h.unexited i ?_, fun i hi => ?_,
    fun d hd => ?_, h.tables⟩
  · rw [hstack]
    exact nodup_concat h.stacks_nodup (h.unfreed np hlive)
  · rw [hstack, mem_append, mem_singleton] at hd
    rcases hd with hd | rfl
    · exact h.stacks_lt d hd
    · exact hs.numbered.lt np hlive
  · refine (h.exited e he).imp_left fun ⟨i, hi, hpid⟩ => ⟨i, ?_, hpid⟩
    refine (update_ne ?_).trans hi
    rintro rfl
    exact absurd (hi.symm.trans hok.embryo) (by decide)
  · exact h.zombie i (hlife i _ (by decide) hi)
  · exact hi.imp (hlife i _ (by decide)) (hlife i _ (by decide))
  · rw [hstack, mem_append, mem_singleton]
    rintro (hd | hd)
    · exact h.unfreed i (hrest i hi).2 hd
    · exact (hrest i hi).1 (hs.numbered.inj i np (hrest i hi).2 hlive hd)
  · rw [hstack]
    exact mem_append_left _ (h.stack_of_reap d hd)

theorem Logged.exit (h : T.Logged) (hs : T.Sound) (hp : T.life p = .active) : Logged { T with
    life := update T.life p .zombie
    parent := fun i => if T.parent i = some p then some INITPROC else T.parent i
    log := T.log.exited (T.pid p) (T.parent p) } := by
  have hlive : T.life p ≠ .unused := by rw [hp]; decide
  have hother : ∀ i, i ≠ p → update T.life p .zombie i = T.life i := fun i hi => update_ne hi
  have hused : ∀ i, update T.life p .zombie i ≠ .unused → T.life i ≠ .unused := by
    intro i hi hu
    by_cases hip : i = p
    · exact hlive (hip ▸ hu)
    · exact hi ((hother i hip).trans hu)
  have hexits : (T.log.exited (T.pid p) (T.parent p)).exits =
    T.log.exits ++ [⟨T.pid p, T.parent p⟩] := rfl
  refine ⟨?_, h.reaps_nodup, h.stacks_nodup, fun e he => ?_, h.stacks_lt, fun e he => ?_,
    fun i hi => ?_, fun r hr => ?_, fun i hi => h.unreaped i (hused i hi), fun i hi => ?_,
    fun i hi => h.unfreed i (hused i hi), h.stack_of_reap, h.tables⟩
  · rw [hexits, map_append]
    exact nodup_concat h.exits_nodup (h.unexited p (Or.inr hp))
  · rw [hexits, mem_append, mem_singleton] at he
    rcases he with he | rfl
    · exact h.exits_lt e he
    · exact hs.numbered.lt p hlive
  · rw [hexits, mem_append, mem_singleton] at he
    rcases he with he | rfl
    · refine (h.exited e he).imp_left fun ⟨i, hi, hpid⟩ => ⟨i, (hother i ?_).trans hi, hpid⟩
      rintro rfl
      exact absurd (hi.symm.trans hp) (by decide)
    · exact .inl ⟨p, update_self .., rfl⟩
  · by_cases hip : i = p
    · subst hip
      refine ⟨⟨T.pid i, T.parent i⟩, mem_append_right _ (mem_singleton_self _), rfl, Or.inl ?_⟩
      exact if_neg fun he => ((hs.slots i).parent i he).2 rfl
    · obtain ⟨e, he, hpid, hpar⟩ := h.zombie i ((hother i hip).symm.trans hi)
      refine ⟨e, mem_append_left _ he, hpid, ?_⟩
      simp only
      split_ifs with hc
      · exact .inr rfl
      · exact hpar
  · obtain ⟨e, he, hr⟩ := h.reaped r hr
    exact ⟨e, mem_append_left _ he, hr⟩
  · have hip : i ≠ p := by
      rintro rfl
      rcases hi with hi | hi <;> cases (update_self i Life.zombie T.life).symm.trans hi
    have hi : T.life i = .embryo ∨ T.life i = .active := hother i hip ▸ hi
    rw [hexits, map_append, mem_append]
    rintro (hd | hd)
    · exact h.unexited i hi hd
    · refine hip (hs.numbered.inj i p ?_ hlive (mem_singleton.1 hd))
      rcases hi with hi | hi <;> rw [hi] <;> decide

theorem Logged.reap (h : T.Logged) (hs : T.Sound) (hi : T.life i = .zombie)
    (hp : T.parent i = some p) :
    Logged { T with
      life := update T.life i .unused
      pid := update T.pid i 0
      parent := update T.parent i none
      kstack := update T.kstack i none
      log := ((T.log.kfree (T.kstack i)).freevm (T.pgdir i)).reaped (T.pid i) p } := by
  have hlive : T.life i ≠ .unused := by rw [hi]; decide
  have hrest : ∀ j, update T.life i .unused j ≠ .unused → j ≠ i ∧ T.life j ≠ .unused :=
    fun _ hj => of_released hj
  have hlife : ∀ j x, x ≠ .unused → update T.life i .unused j = x → j ≠ i ∧ T.life j = x :=
    fun j x hx hj => ⟨(hrest j (hj.trans_ne hx)).1, eq_of_update hx.symm hj⟩
  have hdiff : ∀ j, j ≠ i → T.life j ≠ .unused → T.pid j ≠ T.pid i := fun j hji hj he =>
    hji (hs.numbered.inj j i hj hlive he)
  set l := ((T.log.kfree (T.kstack i)).freevm (T.pgdir i)).reaped (T.pid i) p with hl
  have hstack : l.freedStacks = T.log.freedStacks ++ [T.pid i] := by
    rw [hl, (hs.slots i).has_kstack (Or.inr hi)]
    rfl
  have htable : l.freedTables = T.log.freedTables ++ [T.pid i] := by
    rw [hl, (hs.slots i).has_pgdir (Or.inr hi)]
    rfl
  have hreaps : l.reaps.map Reap.pid = T.log.reaps.map Reap.pid ++ [T.pid i] := by
    rw [hl]
    exact map_append
  have hpid : ∀ j, j ≠ i → update T.pid i 0 j = T.pid j := fun j hj => update_ne hj
  refine ⟨h.exits_nodup, ?_, ?_, h.exits_lt, fun d hd => ?_, fun e he => ?_, fun j hj => ?_,
    fun r hr => ?_, fun j hj => ?_, fun j hj => ?_, fun j hj => ?_, fun d hd => ?_, ?_⟩
  · rw [hreaps]
    exact nodup_concat h.reaps_nodup (h.unreaped i hlive)
  · rw [hstack]
    exact nodup_concat h.stacks_nodup (h.unfreed i hlive)
  · rw [hstack, mem_append, mem_singleton] at hd
    rcases hd with hd | rfl
    · exact h.stacks_lt d hd
    · exact hs.numbered.lt i hlive
  · rw [hreaps]
    rcases h.exited e he with ⟨j, hj, hje⟩ | hd
    · by_cases hji : j = i
      · subst hji
        exact .inr (mem_append_right _ (mem_singleton.2 hje.symm))
      · exact .inl ⟨j, (update_ne hji).trans hj, (hpid j hji).trans hje⟩
    · exact .inr (mem_append_left _ hd)
  · obtain ⟨hji, hz⟩ := hlife j _ (by decide) hj
    obtain ⟨e, he, hpe, hpar⟩ := h.zombie j hz
    refine ⟨e, he, hpe.trans (hpid j hji).symm, ?_⟩
    have hpj : update T.parent i none j = T.parent j := update_ne hji
    exact hpar.imp hpj.trans hpj.trans
  · have hr' : r ∈ T.log.reaps ++ [⟨T.pid i, p⟩] := hr
    rw [mem_append, mem_singleton] at hr'
    rcases hr' with hr' | rfl
    · exact h.reaped r hr'
    · -- the caller is the parent: the one at the exit, or `init`
      obtain ⟨e, he, hpe, hpar⟩ := h.zombie i hi
      rw [hp] at hpar
      exact ⟨e, he, hpe, hpar.imp Eq.symm Option.some.inj⟩
  · obtain ⟨hji, hu⟩ := hrest j hj
    change update T.pid i 0 j ∉ l.reaps.map Reap.pid
    rw [hreaps, hpid j hji, mem_append, mem_singleton]
    exact not_or.2 ⟨h.unreaped j hu, hdiff j hji hu⟩
  · have hji : j ≠ i := by
      rcases hj with hj | hj
      · exact (hlife j _ (by decide) hj).1
      · exact (hlife j _ (by decide) hj).1
    change update T.pid i 0 j ∉ T.log.exits.map Exit.pid
    rw [hpid j hji]
    exact h.unexited j (hj.imp (fun hj => (hlife j _ (by decide) hj).2) fun hj =>
      (hlife j _ (by decide) hj).2)
  · obtain ⟨hji, hu⟩ := hrest j hj
    change update T.pid i 0 j ∉ l.freedStacks
    rw [hstack, hpid j hji, mem_append, mem_singleton]
    exact not_or.2 ⟨h.unfreed j hu, hdiff j hji hu⟩
  · rw [hreaps, mem_append, mem_singleton] at hd
    rw [hstack, mem_append, mem_singleton]
    exact hd.imp_left (h.stack_of_reap d)
  · rw [htable, hreaps, h.tables]

theorem Logged.step (h : T.Logged) (hs : T.Sound) (hstep : T.Step T') : T'.Logged := by
  cases hstep with
  | alloc p np hp hf hnp =>
    exact h.touch rfl (Nat.le_succ _) (fun i hi => ⟨update_ne hi, update_ne hi, rfl, rfl, rfl⟩)
      (by rw [hnp]; decide) (update_self ..) (by decide) fun _ => Or.inr (update_self ..)
  | stack p np hf =>
    have hl := (hs.forks p _ np hf).embryo
    exact h.touch rfl le_rfl (fun i hi => ⟨rfl, rfl, rfl, update_ne hi, rfl⟩)
      (by rw [hl]; decide) hl (by decide) fun hu => Or.inl ⟨hu, rfl⟩
  | drop p np hf =>
    have hl := (hs.forks p _ np hf).embryo
    exact h.touch rfl le_rfl (fun i hi => ⟨update_ne hi, rfl, rfl, rfl, rfl⟩)
      (by rw [hl]; decide) (update_self ..) (by decide) fun hu => absurd (update_self ..) hu
  | copy p np hf =>
    have hl := (hs.forks p _ np hf).embryo
    exact h.touch rfl le_rfl (fun i hi => ⟨rfl, rfl, rfl, rfl, update_ne hi⟩)
      (by rw [hl]; decide) hl (by decide) fun hu => Or.inl ⟨hu, rfl⟩
  | undo p np hf => exact h.undo hs hf
  | adopt p np hf =>
    have hl := (hs.forks p _ np hf).embryo
    exact h.touch rfl le_rfl (fun i hi => ⟨rfl, rfl, update_ne hi, rfl, rfl⟩)
      (by rw [hl]; decide) hl (by decide) fun hu => Or.inl ⟨hu, rfl⟩
  | start p np hf =>
    have hl := (hs.forks p _ np hf).embryo
    exact h.touch rfl le_rfl (fun i hi => ⟨update_ne hi, rfl, rfl, rfl, rfl⟩)
      (by rw [hl]; decide) (update_self ..) (by decide) fun _ => Or.inl ⟨by rw [hl]; decide, rfl⟩
  | exit p hp hf hinit => exact h.exit hs hp
  | reap p i hi hp => exact h.reap hs hi hp

end Tree

end Xv6.Proc
